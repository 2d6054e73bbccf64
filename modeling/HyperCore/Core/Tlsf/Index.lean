import HyperCore.Core.Tlsf.Blocks

/-!
# The table of free lists

`Index null h F L` says that the bitmaps and the lists of the heap hold the blocks of `F`, a set
of addresses with sizes, and no others: list `(i, j)` is the chain `L i j` of the blocks whose
size `mapping_insert` maps to `(i, j)`.

The set is a parameter, since between the steps of `malloc` and `free` it is not the set of the
blocks that are marked free.
-/

namespace HyperCore.Tlsf

open ByteMem MachineInt Segregated

/-! ## The invariant -/

structure Index (null : Nat) (h : Heap) (F : Nat → Nat → Prop) (L : Nat → Nat → List Nat) :
    Prop where
  chain : ∀ i j, i < 25 → j < 32 → Chain h.nextFree h.prevFree null null (h.blocks i j) (L i j)
  mem : ∀ i j a, i < 25 → j < 32 → (a ∈ L i j ↔ ∃ n, F a n ∧ mappingInsert n = (i, j))
  nodup : ∀ i j, i < 25 → j < 32 → (L i j).Nodup
  bits : Occupancy 25 h.flBitmap h.slBitmap fun i j => L i j ≠ []

/-- What the blocks of a set need so that their links can be told apart. -/
structure Filed (null : Nat) (F : Nat → Nat → Prop) : Prop where
  one : ∀ {a n k}, F a n → F a k → n = k
  apart : ∀ {a a' n n'}, F a n → F a' n' → a = a' ∨ a + 32 ≤ a' ∨ a' + 32 ≤ a
  null_le : ∀ {a n}, F a n → null + 32 ≤ a + 8
  size_lt : ∀ {a n}, F a n → n < blockSizeMax
  lt : ∀ {a n}, F a n → a + 32 ≤ 2 ^ 64
  null_pos : 0 < null
  null_lt : null + 32 ≤ 2 ^ 64

/-- The links of the blocks of `F`, and of the dummy block. -/
def LinkAt (null : Nat) (F : Nat → Nat → Prop) (y : Nat) : Prop :=
  Within (null + 16) 16 y ∨ ∃ a n, F a n ∧ Within (a + 16) 16 y

/-- A block of the set, or the dummy block. -/
def Node (null : Nat) (F : Nat → Nat → Prop) (a : Nat) : Prop := a = null ∨ ∃ n, F a n

section

variable {null a b c n i j : Nat} {h : Heap} {F G : Nat → Nat → Prop} {L : Nat → Nat → List Nat}
  {m : Nat → BitVec 8}

theorem Filed.node_apart (hF : Filed null F) (ha : Node null F a) (hb : Node null F b) :
    a = b ∨ a + 16 ≤ b ∨ b + 16 ≤ a := by
  rcases ha with rfl | ⟨n, ha⟩ <;> rcases hb with rfl | ⟨k, hb⟩
  · exact Or.inl rfl
  · have := hF.null_le hb
    omega
  · have := hF.null_le ha
    omega
  · rcases hF.apart ha hb with heq | hlt | hlt
    · exact Or.inl heq
    · omega
    · omega

theorem Filed.node_pos (hF : Filed null F) (ha : Node null F a) : 0 < a ∧ a < 2 ^ 64 := by
  have hpos := hF.null_pos
  rcases ha with rfl | ⟨n, ha⟩
  · have := hF.null_lt
    omega
  · have := hF.null_le ha
    have := hF.lt ha
    omega

theorem Filed.node_link (ha : Node null F a) {y : Nat} (hy : Within (a + 16) 16 y) :
    LinkAt null F y := by
  rcases ha with rfl | ⟨n, ha⟩
  · exact Or.inl hy
  · exact Or.inr ⟨a, n, ha, hy⟩

theorem Filed.mono (hF : Filed null F) (hGF : ∀ a n, G a n → F a n) : Filed null G :=
  ⟨fun h h' => hF.one (hGF _ _ h) (hGF _ _ h'), fun h h' => hF.apart (hGF _ _ h) (hGF _ _ h'),
    fun h => hF.null_le (hGF _ _ h), fun h => hF.size_lt (hGF _ _ h), fun h => hF.lt (hGF _ _ h),
    hF.null_pos, hF.null_lt⟩

theorem size_lt_64 (h : n < blockSizeMax) : n < 2 ^ 64 := Nat.lt_trans h (by decide)

/-- A block of the set is in the list of its size. -/
theorem Index.list (hI : Index null h F L) (hF : Filed null F) (ha : F a n) :
    a ∈ L (mappingInsert n).1 (mappingInsert n).2 := by
  have hlt := size_lt_64 (hF.size_lt ha)
  exact (hI.mem _ _ a ((mappingInsert_fst_lt hlt).mpr (hF.size_lt ha))
    (mappingInsert_snd_lt hlt)).mpr ⟨n, ha, rfl⟩

theorem Index.node (hI : Index null h F L) (hi : i < 25) (hj : j < 32) (ha : a ∈ L i j) :
    Node null F a := by
  obtain ⟨n, hn, -⟩ := (hI.mem i j a hi hj).mp ha
  exact Or.inr ⟨n, hn⟩

theorem Index.head (hI : Index null h F L) (hi : i < 25) (hj : j < 32) :
    Node null F (h.blocks i j) := by
  by_cases hl : L i j = []
  · exact Or.inl ((hI.chain i j hi hj).head_null.mpr hl)
  · exact hI.node hi hj ((hI.chain i j hi hj).head_mem hl)

/-- The blocks that a block of a list points to. -/
theorem Index.neighbours (hI : Index null h F L) (hi : i < 25) (hj : j < 32) (ha : a ∈ L i j) :
    Node null F (h.nextFree a) ∧ Node null F (h.prevFree a) := by
  obtain ⟨hn, hp⟩ := (hI.chain i j hi hj).neighbours ha
  exact ⟨hn.elim (hI.node hi hj) Or.inl, hp.elim (hI.node hi hj) Or.inl⟩

/-- Other bytes than the links do not matter. -/
theorem Index.congr (hI : Index null h F L) (hm : ∀ y, LinkAt null F y → m y = h.bytes y) :
    Index null { h with bytes := m } F L := by
  refine ⟨fun i j hi hj => ?_, hI.mem, hI.nodup, hI.bits⟩
  have hword : ∀ a ∈ L i j, ∀ k, 16 ≤ k → k ≤ 24 → word m (a + k) = word h.bytes (a + k) := by
    intro a ha k hk hk'
    refine word_congr fun y h1 h2 => hm y (Filed.node_link (hI.node hi hj ha) ?_)
    simp only [Within]
    omega
  exact (hI.chain i j hi hj).frame (fun a ha => hword a ha 16 (by decide) (by decide))
    fun a ha => hword a ha 24 (by decide) (by decide)

/-! ## Links of nodes -/

theorem nextFree_setNextFree (hF : Filed null F) (ha : Node null F a) (hb : Node null F b)
    {v : Nat} (hv : v < 2 ^ 64) :
    (h.setNextFree a v).nextFree b = if b = a then v else h.nextFree b := by
  split
  next he =>
    rw [he]
    exact word_put _ _ hv
  next he =>
    have := hF.node_apart ha hb
    exact word_put_apart (by omega)

theorem prevFree_setPrevFree (hF : Filed null F) (ha : Node null F a) (hb : Node null F b)
    {v : Nat} (hv : v < 2 ^ 64) :
    (h.setPrevFree a v).prevFree b = if b = a then v else h.prevFree b := by
  split
  next he =>
    rw [he]
    exact word_put _ _ hv
  next he =>
    have := hF.node_apart ha hb
    exact word_put_apart (by omega)

theorem nextFree_setPrevFree (hF : Filed null F) (ha : Node null F a) (hb : Node null F b)
    (v : Nat) : (h.setPrevFree a v).nextFree b = h.nextFree b := by
  have := hF.node_apart ha hb
  exact word_put_apart (by omega)

theorem prevFree_setNextFree (hF : Filed null F) (ha : Node null F a) (hb : Node null F b)
    (v : Nat) : (h.setNextFree a v).prevFree b = h.prevFree b := by
  have := hF.node_apart ha hb
  exact word_put_apart (by omega)

/-! ## Taking a block out -/

theorem Index.disjoint (hI : Index null h F L) (hF : Filed null F) (hc : F c n) (hi : i < 25)
    (hj : j < 32) : c ∈ L i j ↔ mappingInsert n = (i, j) := by
  rw [hI.mem i j c hi hj]
  constructor
  · rintro ⟨k, hk, hmap⟩
    rw [hF.one hc hk]
    exact hmap
  · exact fun hmap => ⟨n, hc, hmap⟩

/-- The part of a removal that does not depend on where in its list the block is. -/
theorem Index.unlink {h' : Heap} {fl sl : Nat} (hI : Index null h F L) (hF : Filed null F)
    (hc : F c n) (hmap : mappingInsert n = (fl, sl)) (hfl : fl < 25) (hsl : sl < 32)
    (hbytes : h'.bytes =
      ((h.setPrevFree (h.nextFree c) (h.prevFree c)).setNextFree (h.prevFree c) (h.nextFree c)).bytes)
    (hhead : ∀ i j, h'.blocks i j = if i = fl ∧ j = sl then
      (if h.blocks fl sl = c then h.nextFree c else h.blocks fl sl) else h.blocks i j)
    (hbits : Occupancy 25 h'.flBitmap h'.slBitmap fun i j => (L i j).erase c ≠ []) :
    Index null h' (fun a k => F a k ∧ a ≠ c) fun i j => (L i j).erase c := by
  have hmem : c ∈ L fl sl := (hI.disjoint hF hc hfl hsl).mpr hmap
  obtain ⟨hnext, hprev⟩ := hI.neighbours hfl hsl hmem
  have hn : ∀ y, Node null F y →
      h'.nextFree y = if y = h.prevFree c then h.nextFree c else h.nextFree y := by
    intro y hy
    have hword : h'.nextFree y = ((h.setPrevFree (h.nextFree c) (h.prevFree c)).setNextFree
        (h.prevFree c) (h.nextFree c)).nextFree y := by
      rw [Heap.nextFree, hbytes]
      rfl
    rw [hword, nextFree_setNextFree hF hprev hy (hF.node_pos hnext).2,
      nextFree_setPrevFree hF hnext hy]
  have hp : ∀ y, Node null F y →
      h'.prevFree y = if y = h.nextFree c then h.prevFree c else h.prevFree y := by
    intro y hy
    have hword : h'.prevFree y = ((h.setPrevFree (h.nextFree c) (h.prevFree c)).setNextFree
        (h.prevFree c) (h.nextFree c)).prevFree y := by
      rw [Heap.prevFree, hbytes]
      rfl
    rw [hword, prevFree_setNextFree hF hprev hy, prevFree_setPrevFree hF hnext hy
      (hF.node_pos hprev).2]
  refine ⟨fun i j hi hj => ?_, fun i j a hi hj => ?_, fun i j hi hj => ?_, hbits⟩
  · have hch := hI.chain i j hi hj
    by_cases hij : i = fl ∧ j = sl
    · obtain ⟨rfl, rfl⟩ := hij
      obtain ⟨l₁, l₂, hl⟩ := List.append_of_mem hmem
      have hnd := hI.nodup i j hi hj
      have hnull : null ∉ L i j := fun hin => hch.ne_null hin rfl
      rw [hl] at hch hnd hnull
      have hlm : ∀ y ∈ l₁ ++ l₂, Node null F y := by
        intro y hy
        refine hI.node hi hj (hl ▸ ?_)
        rw [List.mem_append] at hy ⊢
        exact hy.imp_right (List.mem_cons_of_mem _)
      have hnot : c ∉ l₁ := by
        intro hin
        exact (List.nodup_append.mp hnd).2.2 c hin c List.mem_cons_self rfl
      rw [hhead, if_pos ⟨rfl, rfl⟩, hl, List.erase_append_right _ hnot, List.erase_cons_head]
      exact hch.remove hnd hnull (fun y hy => hn y (hlm y hy)) fun y hy => hp y (hlm y hy)
    · have hnotin : c ∉ L i j := by
        rw [hI.disjoint hF hc hi hj, hmap, Prod.mk.injEq]
        exact fun hcon => hij ⟨hcon.1.symm, hcon.2.symm⟩
      -- a node of another list is no neighbour of the block
      have hother : ∀ y ∈ L i j, y ∉ L fl sl ∧ y ≠ null := by
        intro y hy
        refine ⟨fun hy' => hij ?_, hch.ne_null hy⟩
        obtain ⟨k, hk, hk'⟩ := (hI.mem i j y hi hj).mp hy
        rw [hI.disjoint hF hk hfl hsl, hk', Prod.mk.injEq] at hy'
        exact hy'
      obtain ⟨hcn, hcp⟩ := (hI.chain fl sl hfl hsl).neighbours hmem
      rw [hhead, if_neg hij, List.erase_of_not_mem hnotin]
      refine hch.frame (fun y hy => ?_) fun y hy => ?_
      · rw [hn y (hI.node hi hj hy), if_neg]
        rintro rfl
        exact hcp.elim (hother _ hy).1 (hother _ hy).2
      · rw [hp y (hI.node hi hj hy), if_neg]
        rintro rfl
        exact hcn.elim (hother _ hy).1 (hother _ hy).2
  · rw [(hI.nodup i j hi hj).mem_erase_iff, hI.mem i j a hi hj]
    constructor
    · rintro ⟨hne, k, hk, hk'⟩
      exact ⟨k, ⟨hk, hne⟩, hk'⟩
    · rintro ⟨k, ⟨hk, hne⟩, hk'⟩
      exact ⟨hne, k, hk, hk'⟩
  · exact (hI.nodup i j hi hj).erase c

theorem removeFreeBlock_spec (hI : Index null h F L) (hF : Filed null F) (hc : F c n) :
    ∃ h', removeFreeBlock null h c (mappingInsert n).1 (mappingInsert n).2 = some h' ∧
      Index null h' (fun a k => F a k ∧ a ≠ c) (fun i j => (L i j).erase c) ∧
      Differ (LinkAt null F) h.bytes h'.bytes := by
  have hlt := size_lt_64 (hF.size_lt hc)
  obtain ⟨fl, sl, hmap⟩ : ∃ fl sl, mappingInsert n = (fl, sl) := ⟨_, _, rfl⟩
  have hfl : fl < 25 := by
    have := (mappingInsert_fst_lt hlt).mpr (hF.size_lt hc)
    rwa [hmap] at this
  have hsl : sl < 32 := by
    have := mappingInsert_snd_lt hlt
    rwa [hmap] at this
  have hmem : c ∈ L fl sl := (hI.disjoint hF hc hfl hsl).mpr hmap
  have hch := hI.chain fl sl hfl hsl
  obtain ⟨hnext, hprev⟩ := hI.neighbours hfl hsl hmem
  let h₂ := (h.setPrevFree (h.nextFree c) (h.prevFree c)).setNextFree (h.prevFree c) (h.nextFree c)
  have hdiff : Differ (LinkAt null F) h.bytes h₂.bytes := by
    intro y hy
    have hn : ¬ Within (h.nextFree c + 16) 16 y := fun hw => hy (Filed.node_link hnext hw)
    have hp : ¬ Within (h.prevFree c + 16) 16 y := fun hw => hy (Filed.node_link hprev hw)
    simp only [Within] at hn hp
    exact (put_apart (by omega)).trans (put_apart (by omega))
  -- lists that lose no block keep their bits
  have hkeep : ∀ i j, i < 25 → j < 32 → ¬ (i = fl ∧ j = sl) → (L i j).erase c = L i j := by
    intro i j hi hj hij
    refine List.erase_of_not_mem ?_
    rw [hI.disjoint hF hc hi hj, hmap, Prod.mk.injEq]
    exact fun hcon => hij ⟨hcon.1.symm, hcon.2.symm⟩
  have hrest : (L fl sl).erase c = [] ↔ h.blocks fl sl = c ∧ h.nextFree c = null := by
    obtain ⟨l₁, l₂, hl⟩ := List.append_of_mem hmem
    have hnd := hI.nodup fl sl hfl hsl
    rw [hl] at hch hnd
    have hnot : c ∉ l₁ := by
      intro hin
      exact (List.nodup_append.mp hnd).2.2 c hin c List.mem_cons_self rfl
    rw [hl, List.erase_append_right _ hnot, List.erase_cons_head, List.append_eq_nil_iff]
    cases l₁ with
    | nil =>
      obtain ⟨he, -, -, hr⟩ := hch
      rw [hr.head_null]
      exact ⟨fun hh => ⟨he, hh.2⟩, fun hh => ⟨rfl, hh.2⟩⟩
    | cons y l₁ =>
      refine iff_of_false (fun hh => List.cons_ne_nil _ _ hh.1) fun hh => ?_
      exact hnot (List.mem_cons.mpr (Or.inl (hh.1.symm.trans hch.1)))
  have hrun : removeFreeBlock null h c fl sl = some (if h.blocks fl sl = c then
      (if h.nextFree c = null then clearBits (h₂.setHead fl sl (h.nextFree c)) fl sl
        else h₂.setHead fl sl (h.nextFree c)) else h₂) := by
    rw [removeFreeBlock, tlsfAssert_true (hF.node_pos hprev).1.ne',
      tlsfAssert_true (hF.node_pos hnext).1.ne', tlsfAssert_true (show fl < flIndexCount ∧ sl < slIndexCount from ⟨hfl, hsl⟩)]
    by_cases hh : h.blocks fl sl = c
    · rw [if_pos hh]
      exact if_pos hh
    · rw [if_neg hh]
      exact if_neg hh
  rw [hmap]
  by_cases hh : h.blocks fl sl = c
  · rw [if_pos hh] at hrun
    have hblocks : ∀ i j, (h₂.setHead fl sl (h.nextFree c)).blocks i j =
        if i = fl ∧ j = sl then (if h.blocks fl sl = c then h.nextFree c else h.blocks fl sl)
        else h.blocks i j := by
      intro i j
      rw [if_pos hh]
      change Function.update h.blocks fl (Function.update (h.blocks fl) sl (h.nextFree c)) i j = _
      by_cases hi : i = fl
      · subst hi
        by_cases hj : j = sl
        · subst hj
          simp
        · simp [hj]
      · simp [hi]
    by_cases hnull : h.nextFree c = null
    · rw [if_pos hnull] at hrun
      refine ⟨_, hrun, hI.unlink hF hc hmap hfl hsl rfl hblocks ?_, hdiff⟩
      refine (hI.bits.clear hfl hsl).congr fun i j hi hj => ?_
      by_cases hij : i = fl ∧ j = sl
      · obtain ⟨rfl, rfl⟩ := hij
        exact iff_of_false (fun hcon => hcon.2 ⟨rfl, rfl⟩) (not_not.mpr (hrest.mpr ⟨hh, hnull⟩))
      · rw [hkeep i j hi hj hij]
        exact and_iff_left hij
    · rw [if_neg hnull] at hrun
      refine ⟨_, hrun, hI.unlink hF hc hmap hfl hsl rfl hblocks ?_, hdiff⟩
      refine hI.bits.congr fun i j hi hj => ?_
      by_cases hij : i = fl ∧ j = sl
      · obtain ⟨rfl, rfl⟩ := hij
        exact iff_of_true (List.ne_nil_of_mem hmem) fun hcon => hnull (hrest.mp hcon).2
      · rw [hkeep i j hi hj hij]
  · rw [if_neg hh] at hrun
    refine ⟨_, hrun, hI.unlink hF hc hmap hfl hsl rfl (fun i j => ?_) ?_, hdiff⟩
    · rw [if_neg hh]
      change h.blocks i j = _
      split
      next hij => rw [hij.1, hij.2]
      next => rfl
    · refine hI.bits.congr fun i j hi hj => ?_
      by_cases hij : i = fl ∧ j = sl
      · obtain ⟨rfl, rfl⟩ := hij
        exact iff_of_true (List.ne_nil_of_mem hmem) fun hcon => hh (hrest.mp hcon).1
      · rw [hkeep i j hi hj hij]

/-! ## Filing a block -/

theorem insertFreeBlock_spec (hI : Index null h F L) (hG : Filed null G)
    (hGF : ∀ a k, G a k ↔ F a k ∨ (a = c ∧ k = n)) (hc : ∀ k, ¬ F c k) (h8 : 8 ∣ c) :
    ∃ h', insertFreeBlock null h c (mappingInsert n).1 (mappingInsert n).2 = some h' ∧
      Index null h' G (fun i j => if mappingInsert n = (i, j) then c :: L i j else L i j) ∧
      Differ (LinkAt null G) h.bytes h'.bytes := by
  have hGc : G c n := (hGF c n).mpr (Or.inr ⟨rfl, rfl⟩)
  have hF : Filed null F := hG.mono fun a k hk => (hGF a k).mpr (Or.inl hk)
  have hlt := size_lt_64 (hG.size_lt hGc)
  obtain ⟨fl, sl, hmap⟩ : ∃ fl sl, mappingInsert n = (fl, sl) := ⟨_, _, rfl⟩
  have hfl : fl < 25 := by
    have := (mappingInsert_fst_lt hlt).mpr (hG.size_lt hGc)
    rwa [hmap] at this
  have hsl : sl < 32 := by
    have := mappingInsert_snd_lt hlt
    rwa [hmap] at this
  have hnodeG : ∀ {y}, Node null F y → Node null G y := by
    rintro y (rfl | ⟨k, hk⟩)
    · exact Or.inl rfl
    · exact Or.inr ⟨k, (hGF y k).mpr (Or.inl hk)⟩
  have hcnode : Node null G c := Or.inr ⟨n, hGc⟩
  have hcnull : c ≠ null := by
    have := hG.null_le hGc
    omega
  have hnotc : ∀ {y}, Node null F y → y ≠ c := by
    rintro y (rfl | ⟨k, hk⟩) rfl
    · exact hcnull rfl
    · exact hc k hk
  have hcur := hI.head hfl hsl
  obtain ⟨current, hcurrent⟩ : ∃ a, a = h.blocks fl sl := ⟨_, rfl⟩
  rw [← hcurrent] at hcur
  have hch := hI.chain fl sl hfl hsl
  rw [← hcurrent] at hch
  let h₃ := ((h.setNextFree c current).setPrevFree c null).setPrevFree current c
  have hnull : Node null G null := Or.inl rfl
  have hn : ∀ y, Node null G y → h₃.nextFree y = if y = c then current else h.nextFree y := by
    intro y hy
    rw [nextFree_setPrevFree hG (hnodeG hcur) hy, nextFree_setPrevFree hG hcnode hy,
      nextFree_setNextFree hG hcnode hy (hG.node_pos (hnodeG hcur)).2]
  have hp : ∀ y, Node null G y → h₃.prevFree y =
      if y = current then c else if y = c then null else h.prevFree y := by
    intro y hy
    rw [prevFree_setPrevFree hG (hnodeG hcur) hy (hG.node_pos hcnode).2,
      prevFree_setPrevFree hG hcnode hy (hG.node_pos hnull).2, prevFree_setNextFree hG hcnode hy]
  have hdiff : Differ (LinkAt null G) h.bytes h₃.bytes := by
    intro y hy
    have h1 : ¬ Within (c + 16) 16 y := fun hw => hy (Filed.node_link hcnode hw)
    have h2 : ¬ Within (current + 16) 16 y := fun hw => hy (Filed.node_link (hnodeG hcur) hw)
    simp only [Within] at h1 h2
    exact ((put_apart (by omega)).trans (put_apart (by omega))).trans (put_apart (by omega))
  have halign : alignPtr (blockToPtr c) (BitVec.ofNat 64 alignSize) = some (blockToPtr c) := by
    have := hG.lt hGc
    refine alignPtr_eight ?_ ?_ <;> simp only [blockToPtr, blockStartOffset] <;> omega
  let h' : Heap := { h₃.setHead fl sl c with
    flBitmap := h.flBitmap ||| 1#32 <<< fl
    slBitmap := Function.update h.slBitmap fl (h.slBitmap fl ||| 1#32 <<< sl) }
  have hrun : insertFreeBlock null h c fl sl = some h' := by
    have h1 : tlsfAssert (fl < flIndexCount ∧ sl < slIndexCount) = some () :=
      tlsfAssert_true ⟨hfl, hsl⟩
    have h2 : tlsfAssert (current ≠ 0) = some () := tlsfAssert_true (hG.node_pos (hnodeG hcur)).1.ne'
    have h3 : tlsfAssert (c ≠ 0) = some () := tlsfAssert_true (hG.node_pos hcnode).1.ne'
    have h4 : tlsfAssert True = some () := rfl
    simp only [insertFreeBlock, ← hcurrent, h1, h2, h3, h4, halign, Option.bind_eq_bind,
      Option.bind_some]
    rfl
  have hblocks : ∀ i j, h'.blocks i j = if mappingInsert n = (i, j) then c else h.blocks i j := by
    intro i j
    change Function.update h.blocks fl (Function.update (h.blocks fl) sl c) i j = _
    rw [hmap]
    by_cases hi : i = fl
    · subst hi
      by_cases hj : j = sl
      · subst hj
        simp
      · rw [if_neg fun he => hj (Prod.mk.inj he).2.symm]
        simp [hj]
    · rw [if_neg fun he => hi (Prod.mk.inj he).1.symm]
      simp [hi]
  rw [hmap]
  refine ⟨h', hrun, ⟨fun i j hi hj => ?_, fun i j a hi hj => ?_, fun i j hi hj => ?_, ?_⟩, hdiff⟩
  · rw [hblocks, ← hmap]
    by_cases hij : mappingInsert n = (i, j)
    · obtain ⟨rfl, rfl⟩ := Prod.mk.inj (hmap.symm.trans hij)
      rw [if_pos hij, if_pos hij]
      have hcurc : current ≠ c := hnotc hcur
      refine hch.insert (hI.nodup fl sl hi hj) hcnull ?_ ?_ (fun _ => ?_) (fun y hy => ?_)
        fun y hy hne => ?_
      · exact (hn c hcnode).trans (if_pos rfl)
      · exact (hp c hcnode).trans (by rw [if_neg hcurc.symm, if_pos rfl])
      · exact (hp current (hnodeG hcur)).trans (if_pos rfl)
      · have hy' := hI.node hi hj hy
        exact (hn y (hnodeG hy')).trans (if_neg (hnotc hy'))
      · have hy' := hI.node hi hj hy
        exact (hp y (hnodeG hy')).trans (by rw [if_neg hne, if_neg (hnotc hy')])
    · rw [if_neg hij, if_neg hij]
      refine (hI.chain i j hi hj).frame (fun y hy => ?_) fun y hy => ?_
      · have hy' := hI.node hi hj hy
        exact (hn y (hnodeG hy')).trans (if_neg (hnotc hy'))
      · have hy' := hI.node hi hj hy
        refine (hp y (hnodeG hy')).trans ?_
        rw [if_neg, if_neg (hnotc hy')]
        -- the head of the list that the block is put on is no block of this one
        rintro rfl
        have hyin : y ∈ L fl sl := hch.head_mem fun hl =>
          (hI.chain i j hi hj).ne_null hy (hch.head_null.mpr hl)
        obtain ⟨k, hk, hk'⟩ := (hI.mem i j y hi hj).mp hy
        rw [hI.disjoint hF hk hfl hsl, hk'] at hyin
        exact hij (hmap.trans hyin.symm)
  · rw [← hmap]
    split
    next hij =>
      rw [List.mem_cons, hI.mem i j a hi hj]
      constructor
      · rintro (rfl | ⟨k, hk, hk'⟩)
        · exact ⟨n, hGc, hij⟩
        · exact ⟨k, (hGF a k).mpr (Or.inl hk), hk'⟩
      · rintro ⟨k, hk, hk'⟩
        rcases (hGF a k).mp hk with hk | ⟨rfl, -⟩
        · exact Or.inr ⟨k, hk, hk'⟩
        · exact Or.inl rfl
    next hij =>
      rw [hI.mem i j a hi hj]
      constructor
      · rintro ⟨k, hk, hk'⟩
        exact ⟨k, (hGF a k).mpr (Or.inl hk), hk'⟩
      · rintro ⟨k, hk, hk'⟩
        rcases (hGF a k).mp hk with hk | ⟨-, rfl⟩
        · exact ⟨k, hk, hk'⟩
        · exact absurd hk' hij
  · rw [← hmap]
    split
    · refine List.nodup_cons.mpr ⟨fun hin => ?_, hI.nodup i j hi hj⟩
      exact hnotc (hI.node hi hj hin) rfl
    · exact hI.nodup i j hi hj
  · refine (hI.bits.set (by decide) hfl hsl).congr fun i j hi hj => ?_
    by_cases hij : (fl, sl) = (i, j)
    · obtain ⟨rfl, rfl⟩ := Prod.mk.inj hij
      rw [if_pos rfl]
      exact iff_of_true (Or.inr ⟨rfl, rfl⟩) (List.cons_ne_nil _ _)
    · rw [if_neg hij]
      refine or_iff_left fun hcon => hij ?_
      rw [hcon.1, hcon.2]

/-! ## Finding a block -/

theorem rank_eq (i j : Nat) : rank (i, j) = 32 * i + j := rfl

/-- Nothing is filed from list `(fl, sl)` on, up to list `k`. -/
def EmptyBelow (L : Nat → Nat → List Nat) (fl sl k : Nat) : Prop :=
  ∀ i j, i < 25 → j < 32 → rank (fl, sl) ≤ rank (i, j) → rank (i, j) < k → L i j = []

/-- The search finds the first list that is not empty. -/
theorem searchSuitableBlock_spec {fl sl : Nat} (hI : Index null h F L) (hfl : fl < 25)
    (hsl : sl < 32) :
    (∃ i j, i < 25 ∧ j < 32 ∧ searchSuitableBlock h fl sl = some (h.blocks i j, i, j) ∧
      L i j ≠ [] ∧ rank (fl, sl) ≤ rank (i, j) ∧ EmptyBelow L fl sl (rank (i, j))) ∨
    (∃ i j, searchSuitableBlock h fl sl = some (0, i, j) ∧ EmptyBelow L fl sl (rank (25, 0))) := by
  have hrow : ∀ j, j < 32 → ((h.slBitmap fl &&& onesFrom sl).getLsbD j = true ↔
      L fl j ≠ [] ∧ sl ≤ j) := by
    intro j hj
    rw [BitVec.getLsbD_and, getLsbD_onesFrom hj, Bool.and_eq_true, hI.bits.col fl j hfl hj,
      decide_eq_true_eq]
  have ha : tlsfAssert (fl < flIndexCount) = some () := tlsfAssert_true hfl
  by_cases hmap : h.slBitmap fl &&& onesFrom sl = 0
  · -- the rest of the row is empty
    have hempty : ∀ j, j < 32 → sl ≤ j → L fl j = [] := by
      intro j hj hle
      by_contra hne
      have hset := (hrow j hj).mpr ⟨hne, hle⟩
      rw [hmap] at hset
      simp at hset
    have hcol : ∀ i, i < 32 → ((h.flBitmap &&& onesFrom (fl + 1)).getLsbD i = true ↔
        h.flBitmap.getLsbD i = true ∧ fl < i) := by
      intro i hi
      rw [BitVec.getLsbD_and, getLsbD_onesFrom hi, Bool.and_eq_true, decide_eq_true_eq,
        Nat.succ_le_iff]
    by_cases hflmap : h.flBitmap &&& onesFrom (fl + 1) = 0
    · refine Or.inr ⟨fl, sl, ?_, fun i j hi hj hle _ => ?_⟩
      · simp only [searchSuitableBlock, ha, Option.bind_eq_bind, Option.bind_some, hmap, hflmap,
          ne_eq, not_true, if_false, if_true]
        rfl
      · rw [rank_eq, rank_eq] at hle
        rcases Nat.lt_or_ge fl i with hlt | hge
        · by_contra hne
          have hset := (hcol i (by omega)).mpr ⟨hI.bits.marked hi hj hne, hlt⟩
          rw [hflmap] at hset
          simp at hset
        · obtain rfl : i = fl := by omega
          exact hempty j hj (by omega)
    · obtain ⟨i, hi, hffs, hset, hbefore⟩ := tlsfFfs_spec hflmap
      obtain ⟨hmark, hlt⟩ := (hcol i hi).mp hset
      have hi25 : i < 25 := by
        by_contra hge
        rw [hI.bits.high i (by omega)] at hmark
        cases hmark
      have hne := (hI.bits.row i hi25).mp hmark
      obtain ⟨j, hj, hffs', hset', hbefore'⟩ := tlsfFfs_spec hne
      have hocc := (hI.bits.col i j hi25 hj).mp hset'
      refine Or.inl ⟨i, j, hi25, hj, ?_, hocc, ?_, fun i' j' hi' hj' hle hlt' => ?_⟩
      · have ha' : tlsfAssert (i < flIndexCount) = some () := tlsfAssert_true hi25
        have hb : tlsfAssert (¬ h.slBitmap i = 0) = some () := tlsfAssert_true hne
        simp only [searchSuitableBlock, ha, Option.bind_eq_bind, Option.bind_some, hmap, hflmap,
          ne_eq, not_true, if_false, hffs, Int.toNat_natCast, ha', hb, hffs']
        rfl
      · rw [rank_eq, rank_eq]
        omega
      · rw [rank_eq, rank_eq] at hle hlt'
        rcases Nat.lt_or_ge i' i with hii | hii
        · rcases Nat.lt_or_ge fl i' with hfi | hfi
          · by_contra hocc'
            have hset'' := (hcol i' (by omega)).mpr ⟨hI.bits.marked hi' hj' hocc', hfi⟩
            rw [hbefore i' hii] at hset''
            cases hset''
          · obtain rfl : i' = fl := by omega
            exact hempty j' hj' (by omega)
        · obtain rfl : i' = i := by omega
          by_contra hocc'
          have hset'' := (hI.bits.col i' j' hi25 hj').mpr hocc'
          rw [hbefore' j' (by omega)] at hset''
          cases hset''
  · obtain ⟨j, hj, hffs, hset, hbefore⟩ := tlsfFfs_spec hmap
    obtain ⟨hocc, hle⟩ := (hrow j hj).mp hset
    refine Or.inl ⟨fl, j, hfl, hj, ?_, hocc, ?_, fun i' j' hi' hj' hle' hlt' => ?_⟩
    · simp only [searchSuitableBlock, ha, Option.bind_eq_bind, Option.bind_some, hmap, ne_eq,
        not_false_eq_true, if_true, hffs, Int.toNat_natCast]
      rfl
    · rw [rank_eq, rank_eq]
      omega
    · rw [rank_eq, rank_eq] at hle' hlt'
      obtain rfl : i' = fl := by omega
      by_contra hocc'
      have hset' := (hrow j' hj').mpr ⟨hocc', by omega⟩
      rw [hbefore j' (by omega)] at hset'
      cases hset'

theorem rank_mappingInsert_lt (hn : n < blockSizeMax) : rank (mappingInsert n) < rank (25, 0) := by
  have hlt := size_lt_64 hn
  have h1 := (mappingInsert_fst_lt hlt).mpr hn
  have h2 := mappingInsert_snd_lt hlt
  rw [show flIndexCount = 25 from rfl] at h1
  simp only [rank, slIndexCount, slIndexCountLog2, show (1 : Nat) <<< 5 = 32 from rfl]
  omega

theorem mappingSearch_snd_lt {size : Nat} (hlt : size ≤ 2 ^ 32) : (mappingSearch size).2 < 32 := by
  rw [mappingSearch]
  split
  next hge =>
    have hge' : 256 ≤ size := hge
    have hlog : (tlsfFlsSizet size).toNat - slIndexCountLog2 ≤ 27 := by
      rw [tlsfFlsSizet_eq (by omega) (by omega), Int.toNat_natCast, slIndexCountLog2]
      have : Nat.log2 size < 33 := (Nat.log2_lt (by omega)).mpr (by omega)
      omega
    have hone : 1 <<< ((tlsfFlsSizet size).toNat - slIndexCountLog2) ≤ 2 ^ 27 := by
      rw [Nat.one_shiftLeft]
      exact Nat.pow_le_pow_right (by decide) hlog
    exact mappingInsert_snd_lt (by omega)
  next => exact mappingInsert_snd_lt (by omega)

/-- What `block_locate_free` may take: a block that is large enough, out of the first list from
the one the search starts at that holds any. -/
structure Suits (F : Nat → Nat → Prop) (size c n : Nat) : Prop where
  filed : F c n
  fits : size ≤ n
  listed : rank (mappingSearch size) ≤ rank (mappingInsert n)
  least : ∀ a k, F a k → rank (mappingSearch size) ≤ rank (mappingInsert k) →
    rank (mappingInsert n) ≤ rank (mappingInsert k)

theorem blockLocateFree_spec {size : Nat} (hI : Index null h F L) (hF : Filed null F)
    (hsize : ∀ a n, F a n → blockSize h a = n) (h0 : size ≠ 0) (hd : 8 ∣ size)
    (hlt : size ≤ 2 ^ 32) :
    (∃ c n h', Suits F size c n ∧ blockLocateFree null h size = some (h', c) ∧ c ≠ 0 ∧
      Index null h' (fun a k => F a k ∧ a ≠ c) (fun i j => (L i j).erase c) ∧
      Differ (LinkAt null F) h.bytes h'.bytes) ∨
    (blockLocateFree null h size = some (h, 0) ∧
      ∀ a k, F a k → rank (mappingInsert k) < rank (mappingSearch size)) := by
  obtain ⟨fl, sl, hmap⟩ : ∃ fl sl, mappingSearch size = (fl, sl) := ⟨_, _, rfl⟩
  have hsl : sl < 32 := by
    have := mappingSearch_snd_lt hlt
    rwa [hmap] at this
  have hlist : ∀ a k, F a k → ∃ i j, i < 25 ∧ j < 32 ∧ mappingInsert k = (i, j) ∧ a ∈ L i j := by
    intro a k hk
    have hk64 := size_lt_64 (hF.size_lt hk)
    exact ⟨_, _, (mappingInsert_fst_lt hk64).mpr (hF.size_lt hk), mappingInsert_snd_lt hk64, rfl,
      hI.list hF hk⟩
  by_cases hfl : fl < 25
  · rcases searchSuitableBlock_spec hI hfl hsl with
      ⟨i, j, hi, hj, hrun, hocc, hle, hbelow⟩ | ⟨i, j, hrun, hbelow⟩
    · have hcmem := (hI.chain i j hi hj).head_mem hocc
      obtain ⟨c, hc⟩ : ∃ c, c = h.blocks i j := ⟨_, rfl⟩
      rw [← hc] at hcmem hrun
      obtain ⟨n, hn, hcmap⟩ := (hI.mem i j c hi hj).mp hcmem
      have hn64 := size_lt_64 (hF.size_lt hn)
      have hlisted : rank (mappingSearch size) ≤ rank (mappingInsert n) := by
        rw [hmap, hcmap]
        exact hle
      have hfits : size ≤ n := fits_of_rank_le hd hlt hn64 hlisted
      obtain ⟨h', hrem, hI', hdiff⟩ := removeFreeBlock_spec hI hF hn
      have hc0 : c ≠ 0 := (hF.node_pos (Or.inr ⟨n, hn⟩)).1.ne'
      refine Or.inl ⟨c, n, h', ⟨hn, hfits, hlisted, fun a k hk hrank => ?_⟩, ?_, hc0, hI', hdiff⟩
      · obtain ⟨i', j', hi', hj', hkmap, hain⟩ := hlist a k hk
        rw [hmap, hkmap] at hrank
        rw [hcmap, hkmap]
        by_contra hlt'
        rw [hbelow i' j' hi' hj' hrank (Nat.not_le.mp hlt')] at hain
        cases hain
      · have hassert : tlsfAssert (blockSize h c ≥ size) = some () :=
          tlsfAssert_true (by rw [hsize c n hn]; exact hfits)
        rw [hcmap] at hrem
        have hfl' : fl < flIndexCount := hfl
        simp only [blockLocateFree, h0, if_false, hmap, hfl', if_true, hrun, Option.bind_eq_bind,
          Option.bind_some, ne_eq, hc0, not_false_eq_true, hassert, hrem]
        rfl
    · refine Or.inr ⟨?_, fun a k hk => ?_⟩
      · have hfl' : fl < flIndexCount := hfl
        simp only [blockLocateFree, h0, if_false, hmap, hfl', if_true, hrun, Option.bind_eq_bind,
          Option.bind_some, ne_eq, not_true]
        rfl
      · obtain ⟨i', j', hi', hj', hkmap, hain⟩ := hlist a k hk
        by_contra hle
        rw [hmap, hkmap, Nat.not_lt] at hle
        have hlt' := rank_mappingInsert_lt (hF.size_lt hk)
        rw [hkmap] at hlt'
        rw [hbelow i' j' hi' hj' hle hlt'] at hain
        cases hain
  · refine Or.inr ⟨?_, fun a k hk => ?_⟩
    · have hfl' : ¬ fl < flIndexCount := hfl
      simp only [blockLocateFree, h0, if_false, hmap, hfl']
      rfl
    · refine Nat.lt_of_lt_of_le (rank_mappingInsert_lt (hF.size_lt hk)) ?_
      rw [hmap, rank_eq, rank_eq]
      omega

end

end HyperCore.Tlsf
