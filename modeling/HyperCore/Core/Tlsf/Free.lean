import HyperCore.Core.Tlsf.Alloc

/-!
# `tlsf_free`

The block is marked free, merged with the block before it and with the one after it when these
are free, and filed. `tlsfFree_spec` is about any block in use.
-/

namespace HyperCore.Tlsf

open ByteMem MachineInt Segregated

section

variable {null a b c n k p q y : Nat} {h : Heap} {m m' : Nat → BitVec 8} {prevFree free : Bool}
  {x : Blk} {l l₁ l₂ : List Blk} {L : Nat → Nat → List Nat} {F : Nat → Nat → Prop}

theorem lastFree_true (h : lastFree false l = true) : ∃ l' n, l = l' ++ [⟨n, true⟩] := by
  rcases List.eq_nil_or_concat l with rfl | ⟨l', z, rfl⟩
  · cases h
  · rw [List.concat_eq_append] at h ⊢
    rw [lastFree_append] at h
    obtain ⟨n, f⟩ := z
    obtain rfl : f = true := h
    exact ⟨l', n, rfl⟩

/-! ## Merging with the next block -/

/-- What a block becomes that absorbs its free successor: everything but the flag for it in the
block after both. -/
structure Merged (b : Nat) (h : Heap) (l₁ : List Blk) (c : Nat) (x : Blk) (l₂ : List Blk) : Prop where
  before : Part h.bytes b false l₁
  header : Header h.bytes c x (lastFree false l₁)
  foot : word h.bytes (c + 8 + x.size) = c
  after : Tiles h.bytes (c + 8 + x.size) true l₂

theorem blockMergeNext_free (ht : Tiles h.bytes b false (l₁ ++ ⟨n, free⟩ :: ⟨q, true⟩ :: l₂))
    (hr : Room null b (span (l₁ ++ ⟨n, free⟩ :: ⟨q, true⟩ :: l₂))) (hc : c = b + span l₁)
    (hI : Index null h (fun a k => FreeIn b (l₁ ++ ⟨n, free⟩ :: ⟨q, true⟩ :: l₂) a k ∧ a ≠ c) L) :
    ∃ h' L', blockMergeNext null h c = some (h', c) ∧ Merged b h' l₁ c ⟨n + 8 + q, free⟩ l₂ ∧
      Index null h' (fun a k => FreeIn b (l₁ ++ ⟨n + 8 + q, free⟩ :: l₂) a k ∧ a ≠ c) L' ∧
      Differ (Internal null b (l₁ ++ ⟨n, free⟩ :: ⟨q, true⟩ :: l₂)) h.bytes h'.bytes := by
  obtain ⟨hbefore, hsuffix⟩ := tiles_append.mp ht
  rw [← hc] at hsuffix
  obtain ⟨hsized, hhead, -, hnext⟩ := tiles_cons.mp hsuffix
  obtain ⟨hsizedq, hheadq, -, hafter⟩ := tiles_cons.mp hnext
  simp only at hsized hhead hnext hsizedq hheadq hafter
  have hnmin := hsized.min
  have hqmin := hsizedq.min
  have hn8 := hsized.dvd
  have hq8 := hsizedq.dvd
  have hfin := hr.fin_le
  simp only [span_append, span_cons] at hfin hnmin hqmin hn8 hq8
  obtain ⟨d, hd⟩ : ∃ d, d = c + 8 + n := ⟨_, rfl⟩
  rw [← hd] at hheadq
  have hatd : FreeIn b (l₁ ++ ⟨n, free⟩ :: ⟨q, true⟩ :: l₂) d q := by
    refine at_split.mpr ⟨l₁ ++ [⟨n, free⟩], l₂, by simp, ?_⟩
    simp only [span_append, span_cons, span_nil]
    omega
  have hatc : At b (l₁ ++ ⟨n, free⟩ :: ⟨q, true⟩ :: l₂) c ⟨n, free⟩ :=
    at_split.mpr ⟨l₁, _, rfl, hc⟩
  have hF : Filed null fun a k => FreeIn b (l₁ ++ ⟨n, free⟩ :: ⟨q, true⟩ :: l₂) a k ∧ a ≠ c :=
    (ht.filed hr).mono fun _ _ hk => hk.1
  have hdc : d ≠ c := by omega
  obtain ⟨h₁, hrem, hI₁, hdiff₁⟩ := removeFreeBlock_spec hI hF ⟨hatd, hdc⟩
  have ht₁ := ht.links hr (fun _ _ hk => hk.1) hdiff₁
  obtain ⟨hbefore₁, hsuffix₁⟩ := tiles_append.mp ht₁
  rw [← hc] at hsuffix₁
  obtain ⟨-, hhead₁, -, hnext₁⟩ := tiles_cons.mp hsuffix₁
  obtain ⟨-, hheadq₁, -, hafter₁⟩ := tiles_cons.mp hnext₁
  simp only at hhead₁ hheadq₁ hafter₁
  obtain ⟨m, habs, hhead', hfoot', hafter', hdiff'⟩ := blockAbsorb_spec hsized hhead₁ hsizedq
    hheadq₁ hafter₁ (by simp only [span_cons]; omega)
  simp only at habs hhead' hfoot' hafter' hdiff'
  have hend : c + 8 + n + 8 + q = c + 8 + (n + 8 + q) := by omega
  rw [hend] at hfoot' hafter' hdiff'
  refine ⟨{ h₁ with bytes := m }, fun i j => (L i j).erase d, ?_, ⟨hbefore₁.congr fun y _ h2 => hdiff' y ?_, hhead', hfoot',
    hafter'⟩, ?_, fun y hy => ?_⟩
  · have h1 : blockNext h c = some d := by
      rw [hhead.blockNext_eq hn8 (by simp only; omega) (by simp only; omega), hd]
    have h2 : tlsfAssert (d ≠ 0) = some () := tlsfAssert_true (by omega)
    have h3 : blockIsFree h d = true := hheadq.blockIsFree_eq hq8
    have h4 : tlsfAssert (¬ blockIsLast h c = true) = some () := by
      refine tlsfAssert_true ?_
      rw [hhead.blockIsLast_eq hn8 (by simp only; omega), beq_iff_eq]
      simp only
      omega
    have h5 : blockSize h d = q := hheadq.blockSize_eq hq8 (by simp only; omega)
    rw [← hd] at habs
    simp only [blockMergeNext, h1, h2, h3, h4, Option.bind_eq_bind, Option.bind_some, if_true,
      blockRemove, h5, hrem, habs]
  · simp only [Within]
    omega
  · have hatnew : At b (l₁ ++ ⟨n + 8 + q, free⟩ :: l₂) c ⟨n + 8 + q, free⟩ :=
      at_split.mpr ⟨l₁, _, rfl, hc⟩
    have hspan : span (l₁ ++ ⟨n + 8 + q, free⟩ :: l₂) =
        span (l₁ ++ ⟨n, free⟩ :: ⟨q, true⟩ :: l₂) := by
      simp only [span_append, span_cons]
      omega
    have hset : ∀ a k, (FreeIn b (l₁ ++ ⟨n, free⟩ :: ⟨q, true⟩ :: l₂) a k ∧ a ≠ c) ∧ a ≠ d ↔
        FreeIn b (l₁ ++ ⟨n + 8 + q, free⟩ :: l₂) a k ∧ a ≠ c := by
      intro a k
      simp only [FreeIn, at_append, At, ← hc, ← hd, show d + 8 + q = c + 8 + (n + 8 + q) by omega]
      constructor
      · rintro ⟨⟨ha | ⟨ha, -⟩ | ⟨ha, -⟩ | ha, hne⟩, hne'⟩
        · exact ⟨Or.inl ha, hne⟩
        · exact absurd ha hne
        · exact absurd ha hne'
        · exact ⟨Or.inr (Or.inr ha), hne⟩
      · rintro ⟨ha | ⟨ha, -⟩ | ha, hne⟩
        · have := ha.bounds
          exact ⟨⟨Or.inl ha, hne⟩, by omega⟩
        · exact absurd ha hne
        · have := ha.bounds
          exact ⟨⟨Or.inr (Or.inr (Or.inr ha)), hne⟩, by omega⟩
    refine Index.congr_set ?_ hset
    refine hI₁.tile (hspan ▸ hr) hatnew (fun a k hk => ?_) fun y hy => hdiff' y ?_
    · exact ⟨_, ((hset a k).mp hk).1, (ht.sized hk.1.1).min, hk.1.2⟩
    · simp only [Within] at hy ⊢
      omega
  · have hnot₁ : ¬ Within (c + 8) 8 y := fun hin => hy (header_internal hatc hin)
    have hnot₂ : ¬ Within (d + 8) (q + 16) y := fun hin => hy (tile_internal hatd hin)
    have hkeep : m y = h₁.bytes y := by
      refine hdiff' y ?_
      simp only [Within] at hnot₁ hnot₂ ⊢
      omega
    exact hkeep.trans (hdiff₁ y fun hlink => hy (link_internal ht hr (fun _ _ hk => hk.1) hlink))

/-- A successor in use, or the end of the pool, stays. -/
theorem blockMergeNext_used (ht : Tiles h.bytes b false (l₁ ++ ⟨n, free⟩ :: l₂))
    (hr : Room null b (span (l₁ ++ ⟨n, free⟩ :: l₂))) (hc : c = b + span l₁)
    (hfirst : (first l₂).free = false) : blockMergeNext null h c = some (h, c) := by
  have hsuffix := (tiles_append.mp ht).2
  rw [← hc] at hsuffix
  obtain ⟨hsized, hhead, -, hnext⟩ := tiles_cons.mp hsuffix
  have hnmin := hsized.min
  have hn8 := hsized.dvd
  have hfin := hr.fin_le
  simp only [span_append, span_cons] at hfin hnmin hn8
  have h1 : blockNext h c = some (c + 8 + n) :=
    hhead.blockNext_eq hn8 (by simp only; omega) (by simp only; omega)
  have h2 : tlsfAssert (c + 8 + n ≠ 0) = some () := tlsfAssert_true (by omega)
  have h3 : blockIsFree h (c + 8 + n) = false := by
    rw [hnext.header_first.blockIsFree_eq hnext.first_dvd, hfirst]
  simp only [blockMergeNext, h1, h2, h3, Option.bind_eq_bind, Option.bind_some, Bool.false_eq_true,
    if_false]
  rfl

/-! ## Merging with the block before -/

/-- Two lists with the same blocks in use. -/
structure SameUsed (b : Nat) (l l' : List Blk) : Prop where
  used : ∀ a k, UsedIn b l a k ↔ UsedIn b l' a k
  span_eq : span l = span l'

theorem SameUsed.internal {l' : List Blk} (hs : SameUsed b l l') (hy : Internal null b l y) :
    Internal null b l' y := by
  refine ⟨fun hd => hy.1 ?_, hs.span_eq ▸ hy.2⟩
  obtain ⟨a, k, ha, hin⟩ := hd
  exact ⟨a, k, (hs.used a k).mpr ha, hin⟩

/-- Merging free blocks keeps the blocks in use. -/
theorem sameUsed_merge :
    SameUsed b (l₁ ++ ⟨p, true⟩ :: ⟨q, true⟩ :: l₂) (l₁ ++ ⟨p + 8 + q, true⟩ :: l₂) := by
  refine ⟨fun a k => ?_, by simp only [span_append, span_cons]; omega⟩
  simp only [UsedIn, at_append, At, Blk.mk.injEq, Bool.false_eq_true, and_false, false_or]
  rw [show b + span l₁ + 8 + p + 8 + q = b + span l₁ + 8 + (p + 8 + q) by omega]

theorem blockMergePrev_spec (ht : Tiles h.bytes b false (l₁ ++ ⟨n, true⟩ :: l₂))
    (hr : Room null b (span (l₁ ++ ⟨n, true⟩ :: l₂))) (hc : c = b + span l₁)
    (hI : Index null h (fun a k => FreeIn b (l₁ ++ ⟨n, true⟩ :: l₂) a k ∧ a ≠ c) L)
    (hco : Coalesced false l₁) :
    ∃ h' L' l₁' n', blockMergePrev null h c = some (h', b + span l₁') ∧
      Tiles h'.bytes b false (l₁' ++ ⟨n', true⟩ :: l₂) ∧
      Index null h' (fun a k => FreeIn b (l₁' ++ ⟨n', true⟩ :: l₂) a k ∧ a ≠ b + span l₁') L' ∧
      Differ (Internal null b (l₁ ++ ⟨n, true⟩ :: l₂)) h.bytes h'.bytes ∧
      SameUsed b (l₁ ++ ⟨n, true⟩ :: l₂) (l₁' ++ ⟨n', true⟩ :: l₂) ∧
      Coalesced false l₁' ∧ lastFree false l₁' = false := by
  have hsuffix := (tiles_append.mp ht).2
  rw [← hc] at hsuffix
  obtain ⟨hsized, hhead, -, hnext⟩ := tiles_cons.mp hsuffix
  have hn8 := hsized.dvd
  by_cases hlast : lastFree false l₁ = true
  · obtain ⟨l₀, p, rfl⟩ := lastFree_true hlast
    have hlist : l₀ ++ [⟨p, true⟩] ++ ⟨n, true⟩ :: l₂ = l₀ ++ ⟨p, true⟩ :: ⟨n, true⟩ :: l₂ := by
      simp
    rw [hlist] at ht hr hI ⊢
    simp only [span_append, span_cons, span_nil, Nat.add_zero] at hc
    obtain ⟨c₀, hc₀⟩ : ∃ a, a = b + span l₀ := ⟨_, rfl⟩
    have hsuffix₀ := (tiles_append.mp ht).2
    rw [← hc₀] at hsuffix₀
    obtain ⟨hsizedp, hheadp, hfootp, -⟩ := tiles_cons.mp hsuffix₀
    have hp8 := hsizedp.dvd
    have hpmin := hsizedp.min
    have hnull := hr.null_le
    have hfin := hr.fin_le
    simp only [span_append, span_cons] at hfin hp8 hpmin hn8
    have hc' : c = c₀ + 8 + p := by omega
    have hatp : FreeIn b (l₀ ++ ⟨p, true⟩ :: ⟨n, true⟩ :: l₂) c₀ p := at_split.mpr ⟨l₀, _, rfl, hc₀⟩
    have hatc : FreeIn b (l₀ ++ ⟨p, true⟩ :: ⟨n, true⟩ :: l₂) c n := by
      refine at_split.mpr ⟨l₀ ++ [⟨p, true⟩], l₂, by simp, ?_⟩
      simp only [span_append, span_cons, span_nil]
      omega
    have hne : c₀ ≠ c := by omega
    have hF : Filed null fun a k => FreeIn b (l₀ ++ ⟨p, true⟩ :: ⟨n, true⟩ :: l₂) a k ∧ a ≠ c :=
      (ht.filed hr).mono fun _ _ hk => hk.1
    obtain ⟨h₁, hrem, hI₁, hdiff₁⟩ := removeFreeBlock_spec hI hF ⟨hatp, hne⟩
    have ht₁ := ht.links hr (fun _ _ hk => hk.1) hdiff₁
    obtain ⟨hbefore₁, hsuffix₁⟩ := tiles_append.mp ht₁
    rw [← hc₀] at hsuffix₁
    obtain ⟨-, hheadp₁, -, hrest₁⟩ := tiles_cons.mp hsuffix₁
    obtain ⟨-, hheadn₁, -, hafter₁⟩ := tiles_cons.mp hrest₁
    simp only at hheadp₁ hheadn₁ hafter₁
    obtain ⟨m, habs, hhead', hfoot', hafter', hdiff'⟩ := blockAbsorb_spec hsizedp hheadp₁ hsized
      hheadn₁ hafter₁ (by simp only [span_cons]; omega)
    simp only at habs hhead' hfoot' hafter' hdiff'
    have hend : c₀ + 8 + p + 8 + n = c₀ + 8 + (p + 8 + n) := by omega
    rw [hend] at hfoot' hafter' hdiff'
    have hnew : Tiles m b false (l₀ ++ ⟨p + 8 + n, true⟩ :: l₂) := by
      refine ht₁.splice ?_ fun y hy => hdiff' y (by simp only [Within]; omega)
      rw [← hc₀]
      exact tiles_cons.mpr ⟨⟨by simp only; omega, by simp only; omega⟩, hhead', fun _ => hfoot',
        hafter'⟩
    have hsame : SameUsed b (l₀ ++ ⟨p, true⟩ :: ⟨n, true⟩ :: l₂) (l₀ ++ ⟨p + 8 + n, true⟩ :: l₂) :=
      sameUsed_merge
    have hlast₀ : lastFree false l₀ = false := by
      rw [coalesced_append] at hco
      exact Bool.eq_false_iff.mpr fun hf => hco.2.1 ⟨hf, rfl⟩
    refine ⟨{ h₁ with bytes := m }, fun i j => (L i j).erase c₀, l₀, p + 8 + n, ?_, hnew, ?_,
      fun y hy => ?_, hsame, ?_, hlast₀⟩
    · have h1 : blockIsPrevFree h c = true := by
        rw [hhead.blockIsPrevFree_eq hn8, hlast]
      have h2 : blockPrev h c = some c₀ := by
        rw [blockPrev, tlsfAssert_true h1]
        change some (word h.bytes c) = _
        rw [hc', hfootp rfl]
      have h3 : tlsfAssert (c₀ ≠ 0) = some () := tlsfAssert_true (by omega)
      have h4 : tlsfAssert (blockIsFree h c₀ = true) = some () :=
        tlsfAssert_true (hheadp.blockIsFree_eq hp8)
      have h5 : blockSize h c₀ = p := hheadp.blockSize_eq hp8 (by simp only; omega)
      rw [← hc'] at habs
      rw [← hc₀]
      simp only [blockMergePrev, h1, if_true, h2, h3, h4, Option.bind_eq_bind, Option.bind_some,
        blockRemove, h5, hrem, habs]
    · have hset : ∀ a k, (FreeIn b (l₀ ++ ⟨p, true⟩ :: ⟨n, true⟩ :: l₂) a k ∧ a ≠ c) ∧ a ≠ c₀ ↔
          FreeIn b (l₀ ++ ⟨p + 8 + n, true⟩ :: l₂) a k ∧ a ≠ c₀ := by
        intro a k
        simp only [FreeIn, at_append, At, ← hc₀, ← hc', show c + 8 + n = c₀ + 8 + (p + 8 + n) by omega]
        constructor
        · rintro ⟨⟨ha | ⟨ha, -⟩ | ⟨ha, -⟩ | ha, hne⟩, hne'⟩
          · exact ⟨Or.inl ha, hne'⟩
          · exact absurd ha hne'
          · exact absurd ha hne
          · exact ⟨Or.inr (Or.inr ha), hne'⟩
        · rintro ⟨ha | ⟨ha, -⟩ | ha, hne⟩
          · have := ha.bounds
            exact ⟨⟨Or.inl ha, by omega⟩, hne⟩
          · exact absurd ha hne
          · have := ha.bounds
            exact ⟨⟨Or.inr (Or.inr (Or.inr ha)), by omega⟩, hne⟩
      rw [← hc₀]
      refine Index.congr_set ?_ hset
      refine hI₁.tile (hsame.span_eq ▸ hr) (at_split.mpr ⟨l₀, _, rfl, hc₀⟩ :
        At b (l₀ ++ ⟨p + 8 + n, true⟩ :: l₂) c₀ ⟨p + 8 + n, true⟩) (fun a k hk => ?_)
        fun y hy => hdiff' y ?_
      · exact ⟨_, ((hset a k).mp hk).1, (ht.sized hk.1.1).min, hk.2⟩
      · simp only [Within] at hy ⊢
        omega
    · have hnot₁ : ¬ Within (c₀ + 8) (p + 16) y := fun hin => hy (tile_internal hatp hin)
      have hnot₂ : ¬ Within (c + 8) (n + 16) y := fun hin => hy (tile_internal hatc hin)
      have hkeep : m y = h₁.bytes y := by
        refine hdiff' y ?_
        simp only [Within] at hnot₁ hnot₂ ⊢
        omega
      exact hkeep.trans (hdiff₁ y fun hlink => hy (link_internal ht hr (fun _ _ hk => hk.1) hlink))
    · rw [coalesced_append] at hco
      exact hco.1
  · have hlast' := Bool.eq_false_iff.mpr hlast
    have h1 : blockIsPrevFree h c = false := by
      rw [hhead.blockIsPrevFree_eq hn8, hlast']
    refine ⟨h, L, l₁, n, ?_, ht, hc ▸ hI, Differ.refl _, ⟨fun _ _ => Iff.rfl, rfl⟩, hco, hlast'⟩
    rw [blockMergePrev, h1, if_neg Bool.false_ne_true, hc]

/-! ## The release -/

/-- Filing the block that the merges left. -/
theorem blockInsert_spec (ht : Tiles h.bytes b false (l₁ ++ ⟨n, true⟩ :: l₂))
    (hr : Room null b (span (l₁ ++ ⟨n, true⟩ :: l₂))) (hc : c = b + span l₁)
    (hI : Index null h (fun a k => FreeIn b (l₁ ++ ⟨n, true⟩ :: l₂) a k ∧ a ≠ c) L) :
    ∃ h' L', blockInsert null h c = some h' ∧ Tiles h'.bytes b false (l₁ ++ ⟨n, true⟩ :: l₂) ∧
      Index null h' (FreeIn b (l₁ ++ ⟨n, true⟩ :: l₂)) L' ∧
      Differ (Internal null b (l₁ ++ ⟨n, true⟩ :: l₂)) h.bytes h'.bytes := by
  have hat : FreeIn b (l₁ ++ ⟨n, true⟩ :: l₂) c n := at_split.mpr ⟨l₁, l₂, rfl, hc⟩
  have hF := ht.filed hr
  obtain ⟨f, hhead⟩ := ht.header hat
  have hset : ∀ a k, FreeIn b (l₁ ++ ⟨n, true⟩ :: l₂) a k ↔
      (FreeIn b (l₁ ++ ⟨n, true⟩ :: l₂) a k ∧ a ≠ c) ∨ (a = c ∧ k = n) := by
    intro a k
    constructor
    · intro hk
      by_cases hac : a = c
      · exact Or.inr ⟨hac, hF.one (hac ▸ hk) hat⟩
      · exact Or.inl ⟨hk, hac⟩
    · rintro (hk | ⟨rfl, rfl⟩)
      · exact hk.1
      · exact hat
  obtain ⟨h', hins, hI', hdiff⟩ := insertFreeBlock_spec hI hF hset (fun _ hk => hk.2 rfl)
    (ht.addr_dvd hr.dvd hat)
  refine ⟨h', _, ?_, ht.links hr (fun _ _ hk => hk) hdiff, hI',
    hdiff.mono fun y hy => link_internal ht hr (fun _ _ hk => hk) hy⟩
  have hsize : blockSize h c = n :=
    hhead.blockSize_eq (ht.sized hat).dvd (size_lt_64 (hF.size_lt hat))
  rw [blockInsert, hsize]
  exact hins

/-- The end of a release: a free block that is not filed, and has no free block before it, is merged
with its successor and filed. -/
theorem blockMergeNext_insert (ht : Tiles h.bytes b false (l₁ ++ ⟨n, true⟩ :: l₂))
    (hr : Room null b (span (l₁ ++ ⟨n, true⟩ :: l₂))) (hc : c = b + span l₁)
    (hI : Index null h (fun a k => FreeIn b (l₁ ++ ⟨n, true⟩ :: l₂) a k ∧ a ≠ c) L)
    (hco₁ : Coalesced false l₁) (hlast : lastFree false l₁ = false) (hco₂ : Coalesced false l₂) :
    ∃ h₁ h' l' L', blockMergeNext null h c = some (h₁, c) ∧ blockInsert null h₁ c = some h' ∧
      Pool null b h' l' L' ∧ SameUsed b (l₁ ++ ⟨n, true⟩ :: l₂) l' ∧
      Differ (Internal null b (l₁ ++ ⟨n, true⟩ :: l₂)) h.bytes h'.bytes := by
  have hpool : ∀ {k l₃}, Coalesced true l₃ → Coalesced false (l₁ ++ ⟨k, true⟩ :: l₃) := by
    intro k l₃ hco
    refine coalesced_append.mpr ⟨hco₁, ?_⟩
    rw [hlast]
    exact ⟨fun hcon => Bool.false_ne_true hcon.1, hco⟩
  by_cases hfirst : (first l₂).free = true
  · rcases l₂ with _ | ⟨⟨q, f⟩, l₂⟩
    · cases hfirst
    · obtain rfl : f = true := hfirst
      obtain ⟨h₁, L₁, hmerge, hm, hI₁, hdiff₁⟩ := blockMergeNext_free ht hr hc hI
      have hsame : SameUsed b (l₁ ++ ⟨n, true⟩ :: ⟨q, true⟩ :: l₂) (l₁ ++ ⟨n + 8 + q, true⟩ :: l₂) :=
        sameUsed_merge
      have hsn := ht.sized (x := ⟨n, true⟩) (at_split.mpr ⟨l₁, _, rfl, rfl⟩)
      have hsq := ht.sized (x := ⟨q, true⟩) (at_split.mpr ⟨l₁ ++ [⟨n, true⟩], l₂, by simp, rfl⟩)
      have h1 := hsn.dvd
      have h2 := hsn.min
      have h3 := hsq.dvd
      simp only at h1 h2 h3
      have ht₁ : Tiles h₁.bytes b false (l₁ ++ ⟨n + 8 + q, true⟩ :: l₂) := by
        refine tiles_append.mpr ⟨hm.before, ?_⟩
        rw [← hc]
        exact tiles_cons.mpr ⟨⟨by simp only; omega, by simp only; omega⟩, hm.header,
          fun _ => hm.foot, hm.after⟩
      have hr₁ : Room null b (span (l₁ ++ ⟨n + 8 + q, true⟩ :: l₂)) := hsame.span_eq ▸ hr
      obtain ⟨h', L', hins, ht', hI', hdiff'⟩ := blockInsert_spec ht₁ hr₁ hc hI₁
      refine ⟨h₁, h', _, L', hmerge, hins, ⟨hr₁, ht', hpool hco₂.2, hI'⟩, hsame, fun y hy => ?_⟩
      rw [hdiff' y fun hin => hy ?_, hdiff₁ y hy]
      exact SameUsed.internal ⟨fun a k => (hsame.used a k).symm, hsame.span_eq.symm⟩ hin
  · obtain ⟨h', L', hins, ht', hI', hdiff'⟩ := blockInsert_spec ht hr hc hI
    refine ⟨h, h', _, L', blockMergeNext_used ht hr hc (Bool.eq_false_iff.mpr hfirst), hins,
      ⟨hr, ht', hpool ?_, hI'⟩, ⟨fun _ _ => Iff.rfl, rfl⟩, hdiff'⟩
    rcases l₂ with _ | ⟨z, l₂⟩
    · trivial
    · exact ⟨fun hcon => hfirst hcon.2, hco₂.2⟩

/-- What a call of `tlsf_free` does. -/
structure Released (null b : Nat) (h : Heap) (l : List Blk) (c n : Nat) (h' : Heap)
    (l' : List Blk) : Prop where
  used : ∀ a k, UsedIn b l' a k ↔ UsedIn b l a k ∧ a ≠ c
  span_eq : span l' = span l
  differ : Differ (fun y => Internal null b l y ∨ Within (c + 16) n y) h.bytes h'.bytes

/-- Giving a block up adds its data to the bytes that the allocator may write. -/
theorem internal_mark (hc : c = b + span l₁) (hy : Internal null b (l₁ ++ ⟨n, true⟩ :: l₂) y) :
    Internal null b (l₁ ++ ⟨n, false⟩ :: l₂) y ∨ Within (c + 16) n y := by
  by_cases hin : Within (c + 16) n y
  · exact Or.inr hin
  · left
    refine ⟨?_, ?_⟩
    · rintro ⟨a, k, ha, hin'⟩
      by_cases hac : a = c
      · have hat : UsedIn b (l₁ ++ ⟨n, false⟩ :: l₂) c n := at_split.mpr ⟨l₁, l₂, rfl, hc⟩
        rcases ha.apart hat with ⟨-, he⟩ | hlt | hlt
        · obtain rfl : k = n := congrArg Blk.size he
          exact hin (hac ▸ hin')
        · simp only at hlt
          omega
        · simp only at hlt
          omega
      · exact hy.1 ⟨a, k, usedIn_mark.mpr ⟨ha, hc ▸ hac⟩, hin'⟩
    · have hspan : span (l₁ ++ ⟨n, false⟩ :: l₂) = span (l₁ ++ ⟨n, true⟩ :: l₂) := by
        simp only [span_append, span_cons]
      rw [hspan]
      exact hy.2

theorem tlsfFree_spec (hp : Pool null b h l L) (hu : UsedIn b l c n) :
    ∃ h' l' L', tlsfFree null h (c + 16) = some h' ∧ Released null b h l c n h' l' ∧
      Pool null b h' l' L' := by
  obtain ⟨l₁, l₂, rfl, hc⟩ := at_split.mp hu
  have hsuffix := (tiles_append.mp hp.tiles).2
  rw [← hc] at hsuffix
  obtain ⟨hsized, hhead, -, hnext⟩ := tiles_cons.mp hsuffix
  have hfin := hp.room.fin_le
  have hspan : span (l₁ ++ ⟨n, true⟩ :: l₂) = span (l₁ ++ ⟨n, false⟩ :: l₂) := by
    simp only [span_append, span_cons]
  simp only [span_append, span_cons] at hfin
  obtain ⟨m₁, hmark, htiles₁, hdiff₁⟩ := blockMarkAsFree_spec hsized hhead hnext
    (by simp only [span_cons]; omega)
  have ht₁ : Tiles m₁ b false (l₁ ++ ⟨n, true⟩ :: l₂) :=
    hp.tiles.splice (hc ▸ htiles₁) fun y hy => hdiff₁ y (by simp only [Within]; omega)
  have hr₁ : Room null b (span (l₁ ++ ⟨n, true⟩ :: l₂)) := hspan ▸ hp.room
  have hI₁ : Index null { h with bytes := m₁ }
      (fun a k => FreeIn b (l₁ ++ ⟨n, true⟩ :: l₂) a k ∧ a ≠ c) L := by
    refine Index.congr_set ?_ fun a k => hc ▸ freeIn_mark
    refine hp.index.tile hp.room hu (fun a k hk => ?_) fun y hy => hdiff₁ y ?_
    · refine ⟨_, hk, (hp.tiles.sized hk).min, ?_⟩
      rw [hc]
      exact (freeIn_mark.mp hk).2
    · simp only [Within] at hy ⊢
      omega
  obtain ⟨hco₁, -, hco₂⟩ := coalesced_append.mp hp.coalesced
  obtain ⟨h₂, L₂, l₁', n', hprev, ht₂, hI₂, hdiff₂, hsame₂, hco₂', hlast₂⟩ :=
    blockMergePrev_spec ht₁ hr₁ hc hI₁ hco₁
  obtain ⟨h₃, h', l', L', hmerge, hins, hp', hsame', hdiff'⟩ := blockMergeNext_insert ht₂
    (hsame₂.span_eq ▸ hr₁) rfl hI₂ hco₂' hlast₂ hco₂
  refine ⟨h', l', L', ?_, ⟨fun a k => ?_, ?_, fun y hy => ?_⟩, hp'⟩
  · have h1 : tlsfAssert (¬ blockIsFree h c = true) = some () := by
      refine tlsfAssert_true ?_
      rw [hhead.blockIsFree_eq hsized.dvd]
      exact Bool.false_ne_true
    have h2 : blockFromPtr (c + 16) = c := Nat.add_sub_cancel c 16
    simp only [tlsfFree, ne_eq, Nat.add_eq_zero_iff, OfNat.ofNat_ne_zero, and_false, not_false_eq_true,
      if_true, h2, h1, hmark, hprev, hmerge, hins, Option.bind_eq_bind, Option.bind_some]
  · rw [← hsame'.used, ← hsame₂.used, usedIn_mark, hc]
  · rw [← hsame'.span_eq, ← hsame₂.span_eq, hspan]
  · have hy₁ : ¬ Internal null b (l₁ ++ ⟨n, true⟩ :: l₂) y := fun hin => hy (internal_mark hc hin)
    have hat : FreeIn b (l₁ ++ ⟨n, true⟩ :: l₂) c n := at_split.mpr ⟨l₁, l₂, rfl, hc⟩
    have hnot : ¬ Within (c + 8) (n + 16) y := fun hin => hy₁ (tile_internal hat hin)
    rw [hdiff' y fun hin => hy₁ ?_, hdiff₂ y hy₁]
    · refine hdiff₁ y ?_
      simp only [Within] at hnot ⊢
      omega
    · exact SameUsed.internal ⟨fun a k => (hsame₂.used a k).symm, hsame₂.span_eq.symm⟩ hin

end

end HyperCore.Tlsf
