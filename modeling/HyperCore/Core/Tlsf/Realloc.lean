import HyperCore.Core.Tlsf.Free

/-!
# `tlsf_realloc`

A block in use is trimmed, grows over the free block after it, or moves. `tlsfRealloc_spec` is
about every block in use and every size that the allocator can round up.
-/

namespace HyperCore.Tlsf

open ByteMem MachineInt Segregated

section

variable {null a b c n k p q size y : Nat} {h : Heap} {m m' : Nat → BitVec 8}
  {prevFree free : Bool} {x : Blk} {l l₁ l₂ : List Blk} {L : Nat → Nat → List Nat}
  {F : Nat → Nat → Prop}

/-- What becomes of a block in use that is resized in place. -/
structure Resized (null b : Nat) (h : Heap) (l : List Blk) (c n k : Nat) (h' : Heap)
    (l' : List Blk) : Prop where
  used : ∀ a j, UsedIn b l' a j ↔ (UsedIn b l a j ∧ a ≠ c) ∨ (a = c ∧ j = k)
  span_eq : span l' = span l
  differ : Differ (fun y => Internal null b l y ∨ (c + 16 + k ≤ y ∧ y < c + 16 + n))
    h.bytes h'.bytes

/-! ## Trimming -/

theorem blockTrimUsed_spec (hp : Pool null b h l L) (hu : UsedIn b l c n) (hd : 8 ∣ size)
    (hmin : 24 ≤ size) (hlt : size ≤ 2 ^ 32) :
    ∃ h' l' L', blockTrimUsed null h c size = some h' ∧ Pool null b h' l' L' ∧
      Resized null b h l c n (carved n size) h' l' := by
  obtain ⟨l₁, l₂, rfl, hc⟩ := at_split.mp hu
  have hsuffix := (tiles_append.mp hp.tiles).2
  rw [← hc] at hsuffix
  obtain ⟨hsized, hhead, -, hnext⟩ := tiles_cons.mp hsuffix
  have hfin := hp.room.fin_le
  simp only [span_append, span_cons] at hfin
  have hn8 := hsized.dvd
  simp only at hn8
  have hsize : blockSize h c = n := hhead.blockSize_eq hn8 (by simp only; omega)
  have hassert : tlsfAssert (¬ blockIsFree h c = true) = some () := by
    refine tlsfAssert_true ?_
    rw [hhead.blockIsFree_eq hn8]
    exact Bool.false_ne_true
  by_cases hfit : 32 + size ≤ n
  · have hcan : blockCanSplit h c size = true := by
      rw [blockCanSplit_eq hsize hlt, decide_eq_true_eq]
      exact hfit
    have hc8 := hp.tiles.addr_dvd hp.room.dvd hu
    obtain ⟨m₁, f, hsplit, hhead₁, htiles₁, hdiff₁⟩ := blockSplit_spec hsuffix (n := size)
      ⟨hd, hmin⟩ hfit hc8 (by simp only [span_cons]; omega)
    obtain ⟨r, hrem⟩ : ∃ r, r = c + 8 + size := ⟨_, rfl⟩
    obtain ⟨q, hq⟩ : ∃ q, q = n - (size + 8) := ⟨_, rfl⟩
    rw [← hrem] at hsplit htiles₁
    rw [← hq] at htiles₁
    obtain ⟨m₂, hflag, htiles₂, hdiff₂⟩ := Tiles.setPrevUsed (h := { h with bytes := m₁ }) htiles₁
    have hkeep : ∀ y, ¬ (Within (c + 8) 8 y ∨ Within (r + 8) 8 y ∨ Within (c + 8 + n) 16 y) →
        m₂ y = h.bytes y := by
      intro y hy
      simp only [Within, not_or] at hy
      rw [hdiff₂ y (by simp only [Within]; omega)]
      exact hdiff₁ y (by simp only [Within]; omega)
    have hnew : Tiles m₂ b false ((l₁ ++ [⟨size, false⟩]) ++ ⟨q, true⟩ :: l₂) := by
      rw [List.append_assoc]
      refine hp.tiles.splice ?_ fun y hy => hkeep y (by simp only [Within]; omega)
      rw [← hc]
      refine tiles_cons.mpr ⟨⟨hd, hmin⟩, hhead₁.congr fun y h1 h2 => ?_, fun hf => ?_, ?_⟩
      · exact hdiff₂ y (by simp only [Within]; omega)
      · cases hf
      · change Tiles m₂ (c + 8 + size) false _
        rw [← hrem]
        exact htiles₂
    have hspan : span ((l₁ ++ [⟨size, false⟩]) ++ ⟨q, true⟩ :: l₂) =
        span (l₁ ++ ⟨n, false⟩ :: l₂) := by
      simp only [span_append, span_cons, span_nil]
      omega
    have hr' : r = b + span (l₁ ++ [⟨size, false⟩]) := by
      simp only [span_append, span_cons, span_nil]
      omega
    have hset : ∀ a k, FreeIn b (l₁ ++ ⟨n, false⟩ :: l₂) a k ↔
        FreeIn b ((l₁ ++ [⟨size, false⟩]) ++ ⟨q, true⟩ :: l₂) a k ∧ a ≠ r := by
      intro a k
      rw [hr', ← freeIn_mark]
      simp only [FreeIn, at_append, At, Blk.mk.injEq, Bool.true_eq_false, and_false, false_or,
        or_false, ← hr']
      rw [show b + span l₁ + 8 + n = r + 8 + q by omega]
    have hI₂ : Index null { h with bytes := m₂ }
        (fun a k => FreeIn b ((l₁ ++ [⟨size, false⟩]) ++ ⟨q, true⟩ :: l₂) a k ∧ a ≠ r) L := by
      refine Index.congr_set ?_ hset
      refine hp.index.tile hp.room hu (fun a k hk => ⟨_, hk, (hp.tiles.sized hk).min, ?_⟩)
        fun y hy => hkeep y ?_
      · rw [hc]
        exact (freeIn_mark.mp hk).2
      · simp only [Within] at hy ⊢
        omega
    obtain ⟨hco₁, -, hco₂⟩ := coalesced_append.mp hp.coalesced
    obtain ⟨h₃, h', l', L', hmerge, hins, hp', hsame, hdiff'⟩ := blockMergeNext_insert
      (h := { h with bytes := m₂ }) hnew (hspan ▸ hp.room) hr' hI₂
      (coalesced_append.mpr ⟨hco₁, fun hcon => Bool.false_ne_true hcon.2, trivial⟩)
      (by rw [lastFree_append]; rfl) hco₂
    refine ⟨h', l', L', ?_, hp', fun a j => ?_, by rw [← hsame.span_eq, hspan], fun y hy => ?_⟩
    · simp only [blockTrimUsed, hassert, Option.bind_eq_bind, Option.bind_some, hcan, if_true,
        hsplit, hflag, hmerge, hins]
    · rw [← hsame.used, carved, if_pos hfit]
      simp only [UsedIn, at_append, At, Blk.mk.injEq, and_true, Bool.false_eq_true, and_false,
        false_or, or_false, ← hr', ← hc, show r + 8 + q = c + 8 + n by omega]
      constructor
      · rintro ((ha | ha) | ha)
        · have := ha.bounds
          exact Or.inl ⟨Or.inl ha, by omega⟩
        · exact Or.inr ha
        · have := ha.bounds
          exact Or.inl ⟨Or.inr (Or.inr ha), by omega⟩
      · rintro (⟨ha | ha | ha, hne⟩ | ha)
        · exact Or.inl (Or.inl ha)
        · exact absurd ha.1 hne
        · exact Or.inr ha
        · exact Or.inl (Or.inr ha)
    · rw [not_or] at hy
      obtain ⟨hy, hrest⟩ := hy
      rw [carved, if_pos hfit] at hrest
      have hnot₁ : ¬ Within (c + 8) 8 y := fun hin => hy (header_internal hu hin)
      have hnot₂ : ¬ Within (c + 8 + n) 16 y := by
        intro hin
        refine hy ⟨?_, Or.inl (by simp only [Within, span_append, span_cons] at hin ⊢; omega)⟩
        rintro ⟨a, k, ha, hin'⟩
        simp only [Within] at hin hin'
        rcases ha.apart hu with ⟨rfl, he⟩ | hlt | hlt
        · obtain rfl : k = n := congrArg Blk.size he
          omega
        · simp only at hlt
          omega
        · simp only at hlt
          omega
      rw [hdiff' y fun hin => hy ?_]
      · refine hkeep y ?_
        simp only [Within] at hnot₁ hnot₂ ⊢
        omega
      · -- what is internal after the split was so before, or belonged to the block
        refine ⟨?_, hspan ▸ hin.2⟩
        rintro ⟨a, k, ha, hin'⟩
        by_cases hac : a = c
        · obtain rfl : k = n := by
            rcases ha.apart hu with ⟨-, he⟩ | hlt | hlt
            · exact congrArg Blk.size he
            · simp only at hlt
              omega
            · simp only at hlt
              omega
          refine hin.1 ⟨c, size, ?_, ?_⟩
          · exact at_append.mpr (Or.inl (at_split.mpr ⟨l₁, [], rfl, hc⟩))
          · simp only [Within] at hin' ⊢
            omega
        · refine hin.1 ⟨a, k, ?_, hin'⟩
          simp only [UsedIn, at_append, At] at ha ⊢
          rcases ha with ha | ⟨rfl, -⟩ | ha
          · exact Or.inl (Or.inl ha)
          · exact absurd hc.symm hac
          · refine Or.inr (Or.inr ?_)
            simp only [span_append, span_cons, span_nil]
            rw [show b + (span l₁ + (8 + size + 0)) + 8 + q = b + span l₁ + 8 + n by omega]
            exact ha
  · have hcan : blockCanSplit h c size = false := by
      rw [blockCanSplit_eq hsize hlt, decide_eq_false_iff_not]
      exact hfit
    refine ⟨h, _, L, ?_, hp, fun a j => ?_, rfl, Differ.refl _⟩
    · simp only [blockTrimUsed, hassert, Option.bind_eq_bind, Option.bind_some, hcan,
        Bool.false_eq_true, if_false]
      rfl
    · rw [carved, if_neg hfit]
      constructor
      · intro ha
        by_cases hac : a = c
        · rcases ha.apart hu with ⟨-, he⟩ | hlt | hlt
          · exact Or.inr ⟨hac, congrArg Blk.size he⟩
          · simp only at hlt
            omega
          · simp only at hlt
            omega
        · exact Or.inl ⟨ha, hac⟩
      · rintro (ha | ⟨rfl, rfl⟩)
        · exact ha.1
        · exact hu

/-! ## Growing in place -/

theorem usedIn_one (hu : UsedIn b l c n) (ha : UsedIn b l c k) : k = n := by
  rcases ha.apart hu with ⟨-, he⟩ | hlt | hlt
  · exact congrArg Blk.size he
  · simp only at hlt
    omega
  · simp only at hlt
    omega

theorem expandToNext_spec (hp : Pool null b h (l₁ ++ ⟨n, false⟩ :: ⟨q, true⟩ :: l₂) L)
    (hc : c = b + span l₁) (hgt : n < size) :
    ∃ h' L', expandToNext null h c size n = some h' ∧
      Pool null b h' (l₁ ++ ⟨n + 8 + q, false⟩ :: l₂) L' ∧
      Differ (Internal null b (l₁ ++ ⟨n, false⟩ :: ⟨q, true⟩ :: l₂)) h.bytes h'.bytes := by
  have hatc : UsedIn b (l₁ ++ ⟨n, false⟩ :: ⟨q, true⟩ :: l₂) c n := at_split.mpr ⟨l₁, _, rfl, hc⟩
  have hatq : FreeIn b (l₁ ++ ⟨n, false⟩ :: ⟨q, true⟩ :: l₂) (c + 8 + n) q := by
    refine at_split.mpr ⟨l₁ ++ [⟨n, false⟩], l₂, by simp, ?_⟩
    simp only [span_append, span_cons, span_nil]
    omega
  have hsn := hp.tiles.sized hatc
  have hsq := hp.tiles.sized hatq
  have hfin := hp.room.fin_le
  have h1 := hsn.dvd
  have h2 := hsn.min
  have h3 := hsq.dvd
  simp only [span_append, span_cons] at hfin h1 h2 h3
  have hI : Index null h (fun a k => FreeIn b (l₁ ++ ⟨n, false⟩ :: ⟨q, true⟩ :: l₂) a k ∧ a ≠ c) L :=
    hp.index.congr_set fun a k => by rw [freeIn_mark, hc, and_assoc, and_self]
  obtain ⟨h₁, L₁, hmerge, hm, hI₁, hdiff₁⟩ := blockMergeNext_free hp.tiles hp.room hc hI
  obtain ⟨m, hmark, htiles, hdiff⟩ := blockMarkAsUsed_spec
    (⟨by simp only; omega, by simp only; omega⟩ : Sized ⟨n + 8 + q, false⟩) hm.header hm.after
    (by simp only [span_cons]; omega)
  simp only at hdiff htiles
  have hspan : span (l₁ ++ ⟨n + 8 + q, false⟩ :: l₂) =
      span (l₁ ++ ⟨n, false⟩ :: ⟨q, true⟩ :: l₂) := by
    simp only [span_append, span_cons]
    omega
  have hatnew : UsedIn b (l₁ ++ ⟨n + 8 + q, false⟩ :: l₂) c (n + 8 + q) :=
    at_split.mpr ⟨l₁, _, rfl, hc⟩
  have ht : Tiles m b false (l₁ ++ ⟨n + 8 + q, false⟩ :: l₂) := by
    refine tiles_append.mpr ⟨hm.before.congr fun y h1 h2 => hdiff y ?_, hc ▸ htiles⟩
    simp only [Within]
    omega
  have hsized : ∀ a k, FreeIn b (l₁ ++ ⟨n + 8 + q, false⟩ :: l₂) a k → 24 ≤ k :=
    fun a k hk => (ht.sized hk).min
  refine ⟨{ h₁ with bytes := m }, L₁, ?_, ⟨hspan ▸ hp.room, ht, ?_, ?_⟩, fun y hy => ?_⟩
  · simp only [expandToNext, gt_iff_lt, hgt, if_true, hmerge, Option.bind_eq_bind, Option.bind_some,
      hmark]
  · obtain ⟨hco₁, -, hco₂⟩ := coalesced_append.mp hp.coalesced
    exact coalesced_append.mpr ⟨hco₁, fun hcon => Bool.false_ne_true hcon.2,
      hco₂.2.anywhere false⟩
  · have hkept : Index null { h₁ with bytes := m }
        (fun a k => FreeIn b (l₁ ++ ⟨n + 8 + q, false⟩ :: l₂) a k ∧ a ≠ c) L₁ := by
      refine hI₁.tile (hspan ▸ hp.room) hatnew (fun a k hk => ⟨_, hk.1, hsized a k hk.1, hk.2⟩)
        fun y hy => hdiff y ?_
      simp only [Within] at hy ⊢
      omega
    exact hkept.congr_set fun a k => by rw [freeIn_mark, hc, and_assoc, and_self]
  · have hnot₁ : ¬ Within (c + 8) 8 y := fun hin => hy (header_internal hatc hin)
    have hnot₂ : ¬ Within (c + 8 + n + 8) (q + 16) y := fun hin => hy (tile_internal hatq hin)
    have hkeep : m y = h₁.bytes y := by
      refine hdiff y ?_
      simp only [Within] at hnot₁ hnot₂ ⊢
      omega
    exact hkeep.trans (hdiff₁ y hy)

/-! ## The reallocation -/

/-- What a call of `tlsf_realloc` that answers does: the block at `c` becomes one of `k` bytes at
`c'`, with what fits of the old data. -/
structure Reallocated (null b : Nat) (h : Heap) (l : List Blk) (c n size c' k : Nat) (h' : Heap)
    (l' : List Blk) : Prop where
  fits : size ≤ k
  fresh : ∀ j, UsedIn b l c' j → c' = c
  used : ∀ a j, UsedIn b l' a j ↔ (UsedIn b l a j ∧ a ≠ c) ∨ (a = c' ∧ j = k)
  span_eq : span l' = span l
  data : ∀ i, i < n → i < size → h'.bytes (c' + 16 + i) = h.bytes (c + 16 + i)
  differ : Differ (fun y => Internal null b l y ∨ Within (c + 16) n y) h.bytes h'.bytes

theorem le_carved (h : size ≤ n) : size ≤ carved n size := by
  rw [carved]
  split
  · exact Nat.le_refl _
  · exact h

theorem carved_le (h : size ≤ n) : carved n size ≤ n := by
  rw [carved]
  split
  · exact h
  · exact Nat.le_refl _

/-- The part of `tlsf_realloc` that a block in use and a size other than `0` get to. -/
theorem tlsfRealloc_unfold (hp : Pool null b h (l₁ ++ ⟨n, false⟩ :: l₂) L) (hc : c = b + span l₁)
    {size : SizeT} (hsize : size ≠ 0) {s : Nat} (hs : s = adjusted size.toNat) :
    tlsfRealloc null h (c + 16) size =
      (if s > n ∧ (¬ (first l₂).free = true ∨ s > n + (first l₂).size + 8) then do
        let (h, p) ← tlsfMalloc null h size
        if p ≠ 0 then
          let h ← tlsfFree null { h with bytes := memcpy h.bytes p (c + 16) (min n size.toNat) } (c + 16)
          pure (h, p)
        else pure (h, 0)
      else do
        let h ← expandToNext null h c s n
        let h ← blockTrimUsed null h c s
        pure (h, c + 16)) := by
  have hsuffix := (tiles_append.mp hp.tiles).2
  rw [← hc] at hsuffix
  obtain ⟨hsized, hhead, -, hnext⟩ := tiles_cons.mp hsuffix
  have hfin := hp.room.fin_le
  have hbytes := hp.room.bytes_le
  simp only [span_append, span_cons] at hfin hbytes
  have hn8 := hsized.dvd
  have hmin := hsized.min
  simp only at hn8 hmin
  have hfirst : (first l₂).size ≤ span l₂ := by
    rcases l₂ with _ | ⟨z, l₂⟩
    · exact Nat.le_refl _
    · change z.size ≤ 8 + z.size + span l₂
      omega
  have h1 : blockNext h c = some (c + 8 + n) :=
    hhead.blockNext_eq hn8 (by simp only; omega) (by simp only; omega)
  have h2 : blockSize h c = n := hhead.blockSize_eq hn8 (by simp only; omega)
  have h3 : blockSize h (c + 8 + n) = (first l₂).size :=
    hnext.header_first.blockSize_eq hnext.first_dvd (by omega)
  have h4 : blockIsFree h (c + 8 + n) = (first l₂).free :=
    hnext.header_first.blockIsFree_eq hnext.first_dvd
  have h5 : tlsfAssert (¬ blockIsFree h c = true) = some () := by
    refine tlsfAssert_true ?_
    rw [hhead.blockIsFree_eq hn8]
    exact Bool.false_ne_true
  have h6 : blockFromPtr (c + 16) = c := Nat.add_sub_cancel c 16
  have h7 : (n + (first l₂).size + blockHeaderOverhead) % 2 ^ 64 = n + (first l₂).size + 8 :=
    Nat.mod_eq_of_lt (by simp only [blockHeaderOverhead]; omega)
  have hadjust := adjustRequestSize_eq size
  rw [← hs] at hadjust
  simp only [tlsfRealloc, hsize, and_false, if_false, Nat.add_eq_zero_iff, OfNat.ofNat_ne_zero, h6,
    h1, h2, h3, h4, h5, h7, hadjust, Option.bind_eq_bind, Option.bind_some]

/-- A block of free bytes after the block, of which the request needs some. -/
theorem tlsfRealloc_grow (hp : Pool null b h (l₁ ++ ⟨n, false⟩ :: ⟨q, true⟩ :: l₂) L)
    (hc : c = b + span l₁) (hd : 8 ∣ size) (hmin : 24 ≤ size) (hlt : size ≤ 2 ^ 32)
    (hgt : n < size)
    (hle : size ≤ n + 8 + q) :
    ∃ k h₁ h' l' L', expandToNext null h c size n = some h₁ ∧ blockTrimUsed null h₁ c size = some h' ∧
      Pool null b h' l' L' ∧
      Reallocated null b h (l₁ ++ ⟨n, false⟩ :: ⟨q, true⟩ :: l₂) c n size c k h' l' := by
  obtain ⟨h₁, L₁, hexp, hp₁, hdiff₁⟩ := expandToNext_spec hp hc hgt
  have hu : UsedIn b (l₁ ++ ⟨n, false⟩ :: ⟨q, true⟩ :: l₂) c n := at_split.mpr ⟨l₁, _, rfl, hc⟩
  have hatq : FreeIn b (l₁ ++ ⟨n, false⟩ :: ⟨q, true⟩ :: l₂) (c + 8 + n) q := by
    refine at_split.mpr ⟨l₁ ++ [⟨n, false⟩], l₂, by simp, ?_⟩
    simp only [span_append, span_cons, span_nil]
    omega
  have hu₁ : UsedIn b (l₁ ++ ⟨n + 8 + q, false⟩ :: l₂) c (n + 8 + q) := at_split.mpr ⟨l₁, _, rfl, hc⟩
  obtain ⟨h', l', L', htrim, hp', hres⟩ := blockTrimUsed_spec hp₁ hu₁ hd hmin hlt
  have hspan : span (l₁ ++ ⟨n + 8 + q, false⟩ :: l₂) =
      span (l₁ ++ ⟨n, false⟩ :: ⟨q, true⟩ :: l₂) := by
    simp only [span_append, span_cons]
    omega
  have hused : ∀ a j, UsedIn b (l₁ ++ ⟨n + 8 + q, false⟩ :: l₂) a j ∧ a ≠ c ↔
      UsedIn b (l₁ ++ ⟨n, false⟩ :: ⟨q, true⟩ :: l₂) a j ∧ a ≠ c := by
    intro a j
    rw [hc, ← usedIn_mark, ← usedIn_mark, sameUsed_merge.used]
  have hk := le_carved hle
  -- the block that grew over its successor has no other bytes of its own
  have hinternal : ∀ y, Internal null b (l₁ ++ ⟨n + 8 + q, false⟩ :: l₂) y →
      Internal null b (l₁ ++ ⟨n, false⟩ :: ⟨q, true⟩ :: l₂) y := by
    intro y hy
    refine ⟨?_, hspan ▸ hy.2⟩
    rintro ⟨a, j, ha, hin⟩
    by_cases hac : a = c
    · subst hac
      obtain rfl := usedIn_one hu ha
      refine hy.1 ⟨a, _, hu₁, ?_⟩
      simp only [Within] at hin ⊢
      omega
    · exact hy.1 ⟨a, j, ((hused a j).mpr ⟨ha, hac⟩).1, hin⟩
  have hchange : Differ (fun y => Internal null b (l₁ ++ ⟨n, false⟩ :: ⟨q, true⟩ :: l₂) y)
      h.bytes h'.bytes := by
    intro y hy
    rw [hres.differ y ?_, hdiff₁ y hy]
    rintro (hin | hin)
    · exact hy (hinternal y hin)
    · refine hy (tile_internal hatq ?_)
      simp only [Within]
      omega
  refine ⟨carved (n + 8 + q) size, h₁, h', l', L', hexp, htrim, hp', hk, fun _ _ => rfl, fun a j => ?_,
    hres.span_eq.trans hspan, fun i hi _ => ?_, hchange.mono fun y hy => Or.inl hy⟩
  · rw [hres.used, hused]
  · exact hchange _ fun hin => hin.1 ⟨c, n, hu, by simp only [Within]; omega⟩

theorem Reallocated.mono {size' c' : Nat} {h' : Heap} {l' : List Blk} (hle : size ≤ size')
    (hr : Reallocated null b h l c n size' c' k h' l') : Reallocated null b h l c n size c' k h' l' :=
  ⟨Nat.le_trans hle hr.fits, hr.fresh, hr.used, hr.span_eq,
    fun i hi hi' => hr.data i hi (Nat.lt_of_lt_of_le hi' hle), hr.differ⟩

/-- The data of a block that is handed out was free. -/
theorem Allocated.data_internal {h' : Heap} {l' : List Blk} (ha : Allocated null b h l size c n h' l')
    (hy : Within (c + 16) (carved n size) y) : Internal null b l y := by
  refine tile_internal ha.suits.filed ?_
  have := carved_le ha.suits.fits
  simp only [Within] at hy ⊢
  omega

/-- The block moves: the data is copied before the old block is given up. -/
theorem tlsfRealloc_move {c' n' : Nat} {h₁ : Heap} {l' : List Blk} {L' : Nat → Nat → List Nat}
    (hu : UsedIn b l c n) (ha : Allocated null b h l size c' n' h₁ l') (hp' : Pool null b h₁ l' L')
    {r : Nat} (hr : r ≤ size) :
    ∃ h' l'' L'', tlsfFree null { h₁ with bytes := memcpy h₁.bytes (c' + 16) (c + 16) (min n r) }
        (c + 16) = some h' ∧ Pool null b h' l'' L'' ∧
      Reallocated null b h l c n r c' (carved n' size) h' l'' := by
  have hk := le_carved ha.suits.fits
  have hne : c ≠ c' := UsedIn.ne_free hu ha.suits.filed
  have hnew : UsedIn b l' c' (carved n' size) := (ha.used c' _).mpr (Or.inr ⟨rfl, rfl⟩)
  have hold : UsedIn b l' c n := (ha.used c n).mpr (Or.inl hu)
  have hp₂ : Pool null b { h₁ with bytes := memcpy h₁.bytes (c' + 16) (c + 16) (min n r) } l' L' := by
    refine hp'.write fun y hy => if_neg fun hin => hy ⟨c', _, hnew, ?_⟩
    simp only [Within]
    omega
  obtain ⟨h', l'', L'', hfree, hrel, hp''⟩ := tlsfFree_spec hp₂ hold
  have hinternal : ∀ y, Internal null b l' y → Internal null b l y := by
    intro y hy
    refine ⟨fun hd => hy.1 ?_, ha.span_eq ▸ hy.2⟩
    obtain ⟨a, j, hj, hin⟩ := hd
    exact ⟨a, j, (ha.used a j).mpr (Or.inl hj), hin⟩
  refine ⟨h', l'', L'', hfree, hp'', Nat.le_trans hr hk,
    fun j hj => (ha.fresh j hj).elim, fun a j => ?_, ?_, fun i hi hi' => ?_,
    fun y hy => ?_⟩
  · rw [hrel.used, ha.used]
    constructor
    · rintro ⟨hj | hj, hac⟩
      · exact Or.inl ⟨hj, hac⟩
      · exact Or.inr hj
    · rintro (⟨hj, hac⟩ | ⟨rfl, rfl⟩)
      · exact ⟨Or.inl hj, hac⟩
      · exact ⟨Or.inr ⟨rfl, rfl⟩, hne.symm⟩
  · exact hrel.span_eq.trans ha.span_eq
  · rw [hrel.differ (c' + 16 + i) ?_]
    · change memcpy h₁.bytes (c' + 16) (c + 16) (min n r) (c' + 16 + i) = _
      rw [memcpy, if_pos (by omega), show c + 16 + (c' + 16 + i - (c' + 16)) = c + 16 + i by omega]
      exact ha.differ _ fun hin => hin.1 ⟨c, n, hu, by simp only [Within]; omega⟩
    · rintro (hin | hin)
      · exact hin.1 ⟨c', _, hnew, by simp only [Within]; omega⟩
      · simp only [Within] at hin
        rcases hnew.apart hold with ⟨he, -⟩ | hlt | hlt
        · exact hne he.symm
        · simp only at hlt
          omega
        · simp only at hlt
          omega
  · rw [not_or] at hy
    rw [hrel.differ y (by rintro (hin | hin); exacts [hy.1 (hinternal y hin), hy.2 hin])]
    change memcpy h₁.bytes (c' + 16) (c + 16) (min n r) y = _
    rw [memcpy, if_neg fun hin => hy.1 (ha.data_internal (by simp only [Within]; omega))]
    exact ha.differ y hy.1

/-- A size that the allocator rounds up. -/
def Accepted (size : SizeT) : Prop := size ≠ 0 ∧ size.toNat ≤ 2 ^ 32 - 8

theorem Accepted.adjusted {size : SizeT} (h : Accepted size) :
    adjusted size.toNat ≠ 0 ∧ size.toNat ≤ adjusted size.toNat := by
  obtain ⟨h0, hle⟩ := h
  have h0' : size.toNat ≠ 0 := fun he => h0 (BitVec.eq_of_toNat_eq he)
  have hround : (size.toNat + 7) % 2 ^ 64 / 8 * 8 < 2 ^ 32 := by omega
  have heq : Tlsf.adjusted size.toNat = max ((size.toNat + 7) % 2 ^ 64 / 8 * 8) 24 := by
    rw [Tlsf.adjusted, if_neg h0', if_pos hround]
  rw [heq]
  omega

theorem tlsfRealloc_spec (hp : Pool null b h l L) (hu : UsedIn b l c n) {size : SizeT}
    (hsize : Accepted size) :
    (∃ c' k h' l' L', tlsfRealloc null h (c + 16) size = some (h', c' + 16) ∧ Pool null b h' l' L' ∧
      Reallocated null b h l c n size.toNat c' k h' l') ∨
    (tlsfRealloc null h (c + 16) size = some (h, 0) ∧ n < size.toNat ∧
      tlsfMalloc null h size = some (h, 0)) := by
  obtain ⟨hs0, hsle⟩ := hsize.adjusted
  obtain ⟨s, hs⟩ : ∃ s, s = adjusted size.toNat := ⟨_, rfl⟩
  have hd : 8 ∣ s := hs ▸ adjusted_dvd _
  have hmin : 24 ≤ s := hs ▸ (adjusted_bounds hs0).1
  have hlt : s ≤ 2 ^ 32 := hs ▸ Nat.le_of_lt (adjusted_bounds hs0).2
  rw [← hs] at hs0 hsle
  obtain ⟨l₁, l₂, rfl, hc⟩ := at_split.mp hu
  have hrun := tlsfRealloc_unfold hp hc hsize.1 hs
  by_cases hcond : s > n ∧ (¬ (first l₂).free = true ∨ s > n + (first l₂).size + 8)
  · rw [if_pos hcond] at hrun
    rcases tlsfMalloc_spec hp size with
      ⟨c', n', h₁, l', L', hmalloc, -, ha, hp'⟩ | ⟨hmalloc, -⟩
    · rw [← hs] at ha
      obtain ⟨h', l'', L'', hfree, hp'', hre⟩ := tlsfRealloc_move hu ha hp' hsle
      refine Or.inl ⟨c', _, h', l'', L'', ?_, hp'', hre⟩
      simp only [hrun, hmalloc, Option.bind_eq_bind, Option.bind_some, ne_eq, Nat.add_eq_zero_iff,
        OfNat.ofNat_ne_zero, and_false, not_false_eq_true, if_true, hfree]
      rfl
    · refine Or.inr ⟨?_, ?_, hmalloc⟩
      · simp only [hrun, hmalloc, Option.bind_eq_bind, Option.bind_some, ne_eq, not_true, if_false]
        rfl
      · have hsz := hp.tiles.sized hu
        have hle := adjusted_le hsz.dvd hsz.min (size.isLt)
        simp only at hle
        by_contra hcon
        have := hle (Nat.not_lt.mp hcon)
        omega
  · rw [if_neg hcond] at hrun
    rw [not_and_or, not_or, not_not] at hcond
    by_cases hgt : n < s
    · obtain ⟨hfirst, hle⟩ := hcond.resolve_left fun hcon => hcon hgt
      rcases l₂ with _ | ⟨⟨q, f⟩, l₂⟩
      · cases hfirst
      · obtain rfl : f = true := hfirst
        change ¬ s > n + q + 8 at hle
        obtain ⟨k, h₁, h', l', L', hexp, htrim, hp', hre⟩ :=
          tlsfRealloc_grow hp hc hd hmin hlt hgt (by omega)
        refine Or.inl ⟨c, k, h', l', L', ?_, hp', hre.mono hsle⟩
        simp only [hrun, hexp, htrim, Option.bind_eq_bind, Option.bind_some]
        rfl
    · obtain ⟨h', l', L', htrim, hp', hres⟩ := blockTrimUsed_spec hp hu hd hmin hlt
      have hexp : expandToNext null h c s n = some h := by
        rw [expandToNext, if_neg (by omega)]
        rfl
      have hk := le_carved (Nat.not_lt.mp hgt)
      have hk' := carved_le (Nat.not_lt.mp hgt)
      refine Or.inl ⟨c, carved n s, h', l', L', ?_, hp', ⟨by omega, fun _ _ => rfl, hres.used, hres.span_eq,
        fun i hi hi' => hres.differ _ ?_, hres.differ.mono fun y hy => hy.imp_right ?_⟩⟩
      · simp only [hrun, hexp, htrim, Option.bind_eq_bind, Option.bind_some]
        rfl
      · rintro (hin | hin)
        · exact hin.1 ⟨c, n, hu, by simp only [Within]; omega⟩
        · omega
      · rintro hin
        simp only [Within]
        omega

end

end HyperCore.Tlsf
