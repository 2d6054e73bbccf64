import HyperCore.Core.Tlsf.Pool

/-!
# `tlsf_malloc`

A request is rounded to a size that a block may have, a free block is taken out of the table, and
what it has too much is split off and filed again. `tlsfMalloc_spec` says what becomes of the
pool; it holds of every size, and no assertion on the way fails.
-/

namespace HyperCore.Tlsf

open ByteMem MachineInt Segregated

/-- What becomes of a block of `n` bytes of which `size` are asked for. -/
def carve (n size : Nat) (free : Bool) : List Blk :=
  if 32 + size ≤ n then [⟨size, free⟩, ⟨n - (size + 8), true⟩] else [⟨n, free⟩]

/-- The bytes of the block that is handed out. -/
def carved (n size : Nat) : Nat := if 32 + size ≤ n then size else n

section

variable {null a b c n k size y : Nat} {h : Heap} {m m' : Nat → BitVec 8} {prevFree free : Bool}
  {x : Blk} {l l₁ l₂ : List Blk} {L : Nat → Nat → List Nat} {F : Nat → Nat → Prop}

theorem span_carve : span (carve n size free) = 8 + n := by
  rw [carve]
  split
  · simp only [span_cons, span_nil]
    omega
  · rfl

theorem at_carve : At b (l₁ ++ carve n size free ++ l₂) a x ↔ At b l₁ a x ∨
    (a = b + span l₁ ∧ x = ⟨carved n size, free⟩) ∨
    (32 + size ≤ n ∧ a = b + span l₁ + 8 + size ∧ x = ⟨n - (size + 8), true⟩) ∨
    At (b + span l₁ + 8 + n) l₂ a x := by
  rw [List.append_assoc, at_append, at_append, span_carve, ← Nat.add_assoc, carve, carved]
  split
  next hs => simp only [At, hs, true_and, or_false, or_assoc]
  next hs => simp only [At, hs, false_and, false_or, or_false]

/-- The tiles before a block, when nothing before its size field is written. -/
theorem Tiles.splice (ht : Tiles m b prevFree (l₁ ++ l)) {l' : List Blk}
    (hsuffix : Tiles m' (b + span l₁) (lastFree prevFree l₁) l')
    (hm : ∀ y, y < b + span l₁ + 8 → m' y = m y) : Tiles m' b prevFree (l₁ ++ l') :=
  tiles_append.mpr ⟨(tiles_append.mp ht).1.congr fun y _ h2 => hm y (by omega), hsuffix⟩

theorem blockCanSplit_eq (hn : blockSize h c = n) (hlt : size ≤ 2 ^ 32) :
    blockCanSplit h c size = decide (32 + size ≤ n) := by
  rw [blockCanSplit, hn, sizeofBlockHeader, Nat.mod_eq_of_lt (by omega)]

theorem blockTrimFree_spec (ht : Tiles h.bytes b false (l₁ ++ ⟨n, true⟩ :: l₂))
    (hr : Room null b (span (l₁ ++ ⟨n, true⟩ :: l₂))) (hc : c = b + span l₁)
    (hI : Index null h (fun a k => FreeIn b (l₁ ++ ⟨n, true⟩ :: l₂) a k ∧ a ≠ c) L)
    (hd : 8 ∣ size) (hmin : 24 ≤ size) (hlt : size ≤ 2 ^ 32) :
    ∃ h' L', blockTrimFree null h c size = some h' ∧
      Tiles h'.bytes b false (l₁ ++ carve n size true ++ l₂) ∧
      Index null h' (fun a k => FreeIn b (l₁ ++ carve n size true ++ l₂) a k ∧ a ≠ c) L' ∧
      Differ (Internal null b (l₁ ++ ⟨n, true⟩ :: l₂)) h.bytes h'.bytes := by
  have hsuffix := (tiles_append.mp ht).2
  rw [← hc] at hsuffix
  obtain ⟨hsized, hhead, -, -⟩ := tiles_cons.mp hsuffix
  have hfin := hr.fin_le
  simp only [span_append, span_cons] at hfin
  have hn8 : 8 ∣ n := hsized.dvd
  have hnlt : n < 2 ^ 64 := by omega
  have hfree : blockIsFree h c = true := hhead.blockIsFree_eq hsized.dvd
  have hsize : blockSize h c = n := hhead.blockSize_eq hsized.dvd hnlt
  have hat : FreeIn b (l₁ ++ ⟨n, true⟩ :: l₂) c n := at_split.mpr ⟨l₁, l₂, rfl, hc⟩
  have hassert : tlsfAssert (blockIsFree h c = true) = some () := tlsfAssert_true hfree
  by_cases hfit : 32 + size ≤ n
  · have hcan : blockCanSplit h c size = true := by
      rw [blockCanSplit_eq hsize hlt, decide_eq_true_eq]
      exact hfit
    have hc8 := ht.addr_dvd hr.dvd hat
    obtain ⟨m₁, f, hsplit, hhead₁, htiles₁, hdiff₁⟩ := blockSplit_spec hsuffix (n := size)
      ⟨hd, hmin⟩ hfit hc8 (by simp only [span_cons]; omega)
    obtain ⟨r, hrem⟩ : ∃ r, r = c + 8 + size := ⟨_, rfl⟩
    obtain ⟨q, hq⟩ : ∃ q, q = n - (size + 8) := ⟨_, rfl⟩
    rw [← hrem] at hsplit htiles₁
    rw [← hq] at htiles₁
    -- the first half is linked to the second, and the second told about the first
    obtain ⟨m₂, hm₂⟩ : ∃ m, m = put m₁ r c 8 := ⟨_, rfl⟩
    have hput₂ : ∀ y, ¬ (r ≤ y ∧ y < r + 8) → m₂ y = m₁ y := fun y hy => hm₂ ▸ put_apart hy
    have hlink : blockLinkNext { h with bytes := m₁ } c = some ({ h with bytes := m₂ }, r) := by
      have hl := Header.blockLinkNext_eq (h := { h with bytes := m₁ }) hhead₁ hd
        (show 0 < size by omega) (show c + 8 + size < 2 ^ 64 by omega)
      rw [hl, hm₂, hrem]
    have htiles₂ : Tiles m₂ r f (⟨q, true⟩ :: l₂) :=
      htiles₁.congr fun y h1 _ => hput₂ y (by omega)
    obtain ⟨m₃, hflag, htiles₃, hdiff₃⟩ := Tiles.setPrevFree (h := { h with bytes := m₂ }) htiles₂
    have hkeep : ∀ y, ¬ (Within (c + 8) 8 y ∨ Within r 16 y ∨ Within (c + 8 + n) 16 y) →
        m₃ y = h.bytes y := by
      intro y hy
      simp only [Within, not_or] at hy
      rw [hdiff₃ y (by simp only [Within]; omega)]
      change m₂ y = _
      rw [hput₂ y (by omega), hdiff₁ y (by simp only [Within]; omega)]
    have hmid : Tiles m₃ c (lastFree false l₁) (⟨size, true⟩ :: ⟨q, true⟩ :: l₂) := by
      refine tiles_cons.mpr ⟨⟨hd, hmin⟩, hhead₁.congr fun y h1 h2 => ?_, fun _ => ?_, ?_⟩
      · rw [hdiff₃ y (by simp only [Within]; omega)]
        exact hput₂ y (by omega)
      · change word m₃ (c + 8 + size) = c
        rw [← hrem, hdiff₃.word fun y h1 h2 => by simp only [Within]; omega]
        change word m₂ r = c
        rw [hm₂, word_put _ _ (by omega)]
      · change Tiles m₃ (c + 8 + size) true _
        rw [← hrem]
        exact htiles₃
    have hnew : Tiles m₃ b false (l₁ ++ ⟨size, true⟩ :: ⟨q, true⟩ :: l₂) := by
      refine ht.splice (hc ▸ hmid) fun y hy => hkeep y ?_
      simp only [Within]
      omega
    have hspan : span (l₁ ++ ⟨size, true⟩ :: ⟨q, true⟩ :: l₂) = span (l₁ ++ ⟨n, true⟩ :: l₂) := by
      simp only [span_append, span_cons]
      omega
    -- the second half is filed
    let G := fun a k => FreeIn b (l₁ ++ ⟨size, true⟩ :: ⟨q, true⟩ :: l₂) a k ∧ a ≠ c
    have hGfiled : Filed null G := (hnew.filed (hspan ▸ hr)).mono fun a k hk => hk.1
    have hGF : ∀ a k, G a k ↔ (FreeIn b (l₁ ++ ⟨n, true⟩ :: l₂) a k ∧ a ≠ c) ∨ (a = r ∧ k = q) := by
      intro a k
      have hne : a = r → a ≠ c := by omega
      simp only [G, FreeIn, at_append, At, ← hc, Blk.mk.injEq, and_true,
        show c + 8 + size = r by omega, show r + 8 + q = c + 8 + n by omega]
      tauto
    have hfresh : ∀ k, ¬ (FreeIn b (l₁ ++ ⟨n, true⟩ :: l₂) r k ∧ r ≠ c) := by
      rintro k ⟨hk, hne⟩
      rcases hat.apart hk with ⟨he, -⟩ | hlt | hlt
      · exact hne he.symm
      · simp only at hlt
        omega
      · simp only at hlt
        omega
    have hI₃ : Index null { h with bytes := m₃ }
        (fun a k => FreeIn b (l₁ ++ ⟨n, true⟩ :: l₂) a k ∧ a ≠ c) L := by
      refine hI.tile hr hat (fun a k hk => ⟨_, hk.1, (ht.sized hk.1).min, hk.2⟩) fun y hy => ?_
      refine hkeep y ?_
      simp only [Within] at hy ⊢
      omega
    have hr8 : 8 ∣ r := by omega
    obtain ⟨h', hins, hI', hdiff'⟩ := insertFreeBlock_spec hI₃ hGfiled hGF hfresh hr8
    have hsize₃ : blockSize { h with bytes := m₃ } r = q := by
      have hh := (tiles_cons.mp htiles₃).2.1
      exact Header.blockSize_eq (h := { h with bytes := m₃ }) hh (show 8 ∣ q by omega)
        (show q < 2 ^ 64 by omega)
    have hcarve : l₁ ++ carve n size true ++ l₂ = l₁ ++ ⟨size, true⟩ :: ⟨q, true⟩ :: l₂ := by
      rw [carve, if_pos hfit, hq, List.append_assoc]
      rfl
    have hrun : blockTrimFree null h c size = some h' := by
      simp only [blockTrimFree, hassert, Option.bind_eq_bind, Option.bind_some, hcan, if_true,
        hsplit, hlink, hflag, blockInsert, hsize₃, hins]
    have hspan' := hspan ▸ hr
    rw [hcarve]
    refine ⟨h', _, hrun, hnew.links hspan' (fun a k hk => hk.1) hdiff', hI', fun y hy => ?_⟩
    have hnoty : ¬ Within (c + 8) (n + 16) y := fun hin => hy (tile_internal hat hin)
    rw [hdiff' y fun hlinky => ?_]
    · refine hkeep y ?_
      simp only [Within] at hnoty ⊢
      omega
    · -- links of blocks that were free before, or of the new one
      refine hy ?_
      rcases hlinky with hn' | ⟨a, k, hk, hin⟩
      · exact link_internal (F := FreeIn b _) ht hr (fun _ _ hk => hk) (Or.inl hn')
      · rcases (hGF a k).mp hk with hold | ⟨rfl, rfl⟩
        · exact link_internal (F := FreeIn b _) ht hr (fun _ _ hk => hk) (Or.inr ⟨a, k, hold.1, hin⟩)
        · refine tile_internal hat ?_
          have hmin' := (hnew.sized hk.1).min
          simp only [Within] at hin hmin' ⊢
          omega
  · have hcan : blockCanSplit h c size = false := by
      rw [blockCanSplit_eq hsize hlt, decide_eq_false_iff_not]
      exact hfit
    have hcarve : l₁ ++ carve n size true ++ l₂ = l₁ ++ ⟨n, true⟩ :: l₂ := by
      rw [carve, if_neg hfit, List.append_assoc]
      rfl
    rw [hcarve]
    refine ⟨h, L, ?_, ht, hI, Differ.refl _⟩
    simp only [blockTrimFree, hassert, Option.bind_eq_bind, Option.bind_some, hcan,
      Bool.false_eq_true, if_false]
    rfl

theorem carve_cons : l₁ ++ carve n size free ++ l₂ =
    l₁ ++ ⟨carved n size, free⟩ :: ((carve n size free).tail ++ l₂) := by
  rw [carve, carved, List.append_assoc]
  split <;> rfl

theorem carve_tail : (carve n size true).tail = (carve n size false).tail := by
  rw [carve, carve]
  split <;> rfl

theorem blockPrepareUsed_spec (ht : Tiles h.bytes b false (l₁ ++ ⟨n, true⟩ :: l₂))
    (hr : Room null b (span (l₁ ++ ⟨n, true⟩ :: l₂))) (hc : c = b + span l₁)
    (hI : Index null h (fun a k => FreeIn b (l₁ ++ ⟨n, true⟩ :: l₂) a k ∧ a ≠ c) L)
    (hd : 8 ∣ size) (hmin : 24 ≤ size) (hlt : size ≤ 2 ^ 32) :
    ∃ h' L', blockPrepareUsed null h c size = some (h', c + 16) ∧
      Tiles h'.bytes b false (l₁ ++ carve n size false ++ l₂) ∧
      Index null h' (FreeIn b (l₁ ++ carve n size false ++ l₂)) L' ∧
      Differ (Internal null b (l₁ ++ ⟨n, true⟩ :: l₂)) h.bytes h'.bytes := by
  obtain ⟨h₁, L₁, htrim, ht₁, hI₁, hdiff₁⟩ := blockTrimFree_spec ht hr hc hI hd hmin hlt
  have hat : FreeIn b (l₁ ++ ⟨n, true⟩ :: l₂) c n := at_split.mpr ⟨l₁, l₂, rfl, hc⟩
  have hspan : span (l₁ ++ carve n size true ++ l₂) = span (l₁ ++ ⟨n, true⟩ :: l₂) := by
    simp only [span_append, span_carve, span_cons]
    omega
  rw [← hspan] at hr
  rw [carve_cons] at ht₁ hI₁ hr
  rw [carve_cons, ← carve_tail]
  have hcarved : carved n size ≤ n := by
    rw [carved]
    split <;> omega
  obtain ⟨l₃, hl₃⟩ : ∃ l', l' = (carve n size true).tail ++ l₂ := ⟨_, rfl⟩
  rw [← hl₃] at ht₁ hI₁ hr ⊢
  have hsuffix := (tiles_append.mp ht₁).2
  rw [← hc] at hsuffix
  obtain ⟨hsized, hhead, -, hrest⟩ := tiles_cons.mp hsuffix
  have hfin := hr.fin_le
  simp only [span_append, span_cons] at hfin
  obtain ⟨m, hmark, htiles, hdiff⟩ := blockMarkAsUsed_spec hsized hhead hrest
    (by simp only [span_cons]; omega)
  have hat₁ : FreeIn b (l₁ ++ ⟨carved n size, true⟩ :: l₃) c (carved n size) :=
    at_split.mpr ⟨l₁, l₃, rfl, hc⟩
  refine ⟨{ h₁ with bytes := m }, L₁, ?_, ?_, ?_, fun y hy => ?_⟩
  · have hnull := hr.null_le
    have hc0 : c ≠ 0 := by omega
    have hs0 : tlsfAssert (size ≠ 0) = some () := tlsfAssert_true (by omega)
    have hs1 : tlsfAssert (¬ size = 0) = some () := hs0
    simp only [blockPrepareUsed, ne_eq, hc0, not_false_eq_true, if_true, hs1, htrim, hmark,
      Option.bind_eq_bind, Option.bind_some]
    rfl
  · refine ht₁.splice (hc ▸ htiles) fun y hy => hdiff y ?_
    simp only [Within]
    omega
  · have hkept : Index null { h₁ with bytes := m }
        (fun a k => FreeIn b (l₁ ++ ⟨carved n size, true⟩ :: l₃) a k ∧ a ≠ c) L₁ := by
      refine hI₁.tile hr hat₁ (fun a k hk => ⟨_, hk.1, (ht₁.sized hk.1).min, hk.2⟩) fun y hy => ?_
      refine hdiff y ?_
      simp only [Within] at hy ⊢
      omega
    exact hkept.congr_set fun a k => by rw [freeIn_mark, hc]
  · have hnoty : ¬ Within (c + 8) (n + 16) y := fun hin => hy (tile_internal hat hin)
    have hkeep : m y = h₁.bytes y := by
      refine hdiff y ?_
      simp only [Within] at hnoty ⊢
      omega
    exact hkeep.trans (hdiff₁ y hy)

/-! ## Requests -/

/-- The size a request is rounded to, `0` for one that is refused. -/
def adjusted (size : Nat) : Nat :=
  if size = 0 then 0
  else if (size + 7) % 2 ^ 64 / 8 * 8 < 2 ^ 32 then max ((size + 7) % 2 ^ 64 / 8 * 8) 24 else 0

theorem adjustRequestSize_eq (size : SizeT) :
    adjustRequestSize size (BitVec.ofNat 64 alignSize) = some (adjusted size.toNat) := by
  rw [adjustRequestSize, adjusted]
  by_cases h0 : size = 0
  · subst h0
    rfl
  · have h0' : size.toNat ≠ 0 := fun he => h0 (BitVec.eq_of_toNat_eq he)
    rw [if_pos h0, if_neg h0', alignUp, alignSize_eq, tlsfAssert_true (pow_two_mask (by decide))]
    have hseven : (BitVec.ofNat 64 (2 ^ 3) - 1).toNat = 7 := by decide
    have haligned : ((size + (BitVec.ofNat 64 (2 ^ 3) - 1)) &&& ~~~(BitVec.ofNat 64 (2 ^ 3) - 1)).toNat =
        (size.toNat + 7) % 2 ^ 64 / 8 * 8 := by
      rw [toNat_and_not_mask _ (by decide), BitVec.toNat_add, hseven, show (2 : Nat) ^ 3 = 8 from rfl]
    simp only [Option.bind_eq_bind, Option.bind_some, Option.pure_def, haligned]
    rfl

theorem adjusted_dvd (size : Nat) : 8 ∣ adjusted size := by
  rw [adjusted]
  split
  · exact Nat.dvd_zero 8
  · split
    · omega
    · exact Nat.dvd_zero 8

theorem adjusted_bounds {size : Nat} (h : adjusted size ≠ 0) :
    24 ≤ adjusted size ∧ adjusted size < 2 ^ 32 := by
  rw [adjusted] at h ⊢
  split at h
  · exact absurd rfl h
  next h0 =>
    rw [if_neg h0]
    split at h
    next hlt =>
      rw [if_pos hlt]
      omega
    next => exact absurd rfl h

/-- What fits a block still fits it when it is rounded. -/
theorem adjusted_le {size : Nat} (hd : 8 ∣ n) (hmin : 24 ≤ n) (hlt : size < 2 ^ 64)
    (hle : size ≤ n) : adjusted size ≤ n := by
  rw [adjusted]
  split
  · exact Nat.zero_le _
  · split
    · omega
    · exact Nat.zero_le _

/-- A rounded request holds what was asked for, unless the rounding wrapped. -/
theorem le_adjusted_iff {size : Nat} (hlt : size < 2 ^ 64) (h : adjusted size ≠ 0) :
    size ≤ adjusted size ↔ size ≤ 2 ^ 64 - 8 := by
  rw [adjusted] at h ⊢
  split at h
  · exact absurd rfl h
  next h0 =>
    rw [if_neg h0]
    split at h
    next hsmall =>
      rw [if_pos hsmall]
      omega
    next => exact absurd rfl h

/-! ## The allocation -/

/-- Taking a block out of the table. -/
theorem Pool.locate (hp : Pool null b h l L) (h0 : size ≠ 0) (hd : 8 ∣ size) (hlt : size ≤ 2 ^ 32) :
    (∃ c n h₁, Suits (FreeIn b l) size c n ∧ blockLocateFree null h size = some (h₁, c) ∧
      Index null h₁ (fun a k => FreeIn b l a k ∧ a ≠ c) (fun i j => (L i j).erase c) ∧
      Tiles h₁.bytes b false l ∧ Differ (Internal null b l) h.bytes h₁.bytes) ∨
    (blockLocateFree null h size = some (h, 0) ∧
      ∀ a k, FreeIn b l a k → rank (mappingInsert k) < rank (mappingSearch size)) := by
  have hF := hp.tiles.filed hp.room
  have hsize : ∀ a k, FreeIn b l a k → blockSize h a = k := by
    intro a k hk
    obtain ⟨f, hh⟩ := hp.tiles.header hk
    exact hh.blockSize_eq (hp.tiles.sized hk).dvd (size_lt_64 (hF.size_lt hk))
  rcases blockLocateFree_spec hp.index hF hsize h0 hd hlt with
    ⟨c, n, h₁, hsuits, hloc, -, hI₁, hdiff₁⟩ | hnone
  · exact Or.inl ⟨c, n, h₁, hsuits, hloc, hI₁, hp.tiles.links hp.room (fun _ _ hk => hk) hdiff₁,
      hdiff₁.mono fun y hy => link_internal hp.tiles hp.room (fun _ _ hk => hk) hy⟩
  · exact Or.inr hnone

/-- A block in use of `k` bytes at `a` came to be, and no other byte was written than the
allocator's own. -/
structure Obtained (null b : Nat) (h : Heap) (l : List Blk) (a k : Nat) (h' : Heap)
    (l' : List Blk) : Prop where
  fresh : ∀ j, ¬ UsedIn b l a j
  used : ∀ d j, UsedIn b l' d j ↔ UsedIn b l d j ∨ (d = a ∧ j = k)
  span_eq : span l' = span l
  differ : Differ (Internal null b l) h.bytes h'.bytes

/-- Handing out a block that was taken out of the table. -/
theorem blockPrepareUsed_pool (ht : Tiles h.bytes b false (l₁ ++ ⟨n, true⟩ :: l₂))
    (hr : Room null b (span (l₁ ++ ⟨n, true⟩ :: l₂))) (hc : c = b + span l₁)
    (hI : Index null h (fun a k => FreeIn b (l₁ ++ ⟨n, true⟩ :: l₂) a k ∧ a ≠ c) L)
    (hd : 8 ∣ size) (hmin : 24 ≤ size) (hlt : size ≤ 2 ^ 32) (hco₁ : Coalesced false l₁) (hco₂ : Coalesced true l₂) :
    ∃ h' l' L', blockPrepareUsed null h c size = some (h', c + 16) ∧ Pool null b h' l' L' ∧
      Obtained null b h (l₁ ++ ⟨n, true⟩ :: l₂) c (carved n size) h' l' := by
  obtain ⟨h', L', hprep, ht', hI', hdiff'⟩ := blockPrepareUsed_spec ht hr hc hI hd hmin hlt
  have hspan : span (l₁ ++ carve n size false ++ l₂) = span (l₁ ++ ⟨n, true⟩ :: l₂) := by
    simp only [span_append, span_carve, span_cons]
    omega
  have hat : FreeIn b (l₁ ++ ⟨n, true⟩ :: l₂) c n := at_split.mpr ⟨l₁, l₂, rfl, hc⟩
  refine ⟨h', _, L', hprep, ⟨hspan ▸ hr, ht', ?_, hI'⟩, ⟨fun j hj => UsedIn.ne_free hj hat rfl,
    fun a k => ?_, hspan, hdiff'⟩⟩
  · rw [List.append_assoc, coalesced_append]
    refine ⟨hco₁, ?_⟩
    rw [carve]
    split
    · refine ⟨fun hcon => ?_, fun hcon => ?_, hco₂⟩
      · cases hcon.2
      · cases hcon.1
    · refine ⟨fun hcon => ?_, hco₂.anywhere false⟩
      cases hcon.2
  · rw [UsedIn, UsedIn, at_carve]
    simp only [at_append, At, Blk.mk.injEq, and_true, Bool.false_eq_true, and_false, false_or,
      ← hc]
    tauto

/-- What a call of `tlsf_malloc` that finds a block does. -/
structure Allocated (null b : Nat) (h : Heap) (l : List Blk) (size c n : Nat) (h' : Heap)
    (l' : List Blk) : Prop extends Obtained null b h l c (carved n size) h' l' where
  suits : Suits (FreeIn b l) size c n

theorem tlsfMalloc_spec (hp : Pool null b h l L) (size : SizeT) :
    (∃ c n h' l' L', tlsfMalloc null h size = some (h', c + 16) ∧ adjusted size.toNat ≠ 0 ∧
      Allocated null b h l (adjusted size.toNat) c n h' l' ∧ Pool null b h' l' L') ∨
    (tlsfMalloc null h size = some (h, 0) ∧ (adjusted size.toNat = 0 ∨
      ∀ a k, FreeIn b l a k → rank (mappingInsert k) < rank (mappingSearch (adjusted size.toNat)))) := by
  obtain ⟨s, hs⟩ : ∃ s, s = adjusted size.toNat := ⟨_, rfl⟩
  have hadjust := adjustRequestSize_eq size
  have hd : 8 ∣ s := hs ▸ adjusted_dvd _
  rw [← hs] at hadjust ⊢
  by_cases h0 : s = 0
  · refine Or.inr ⟨?_, Or.inl h0⟩
    simp only [tlsfMalloc, hadjust, Option.bind_eq_bind, Option.bind_some, blockLocateFree, h0,
      if_true, Option.pure_def, blockPrepareUsed, ne_eq, not_true, if_false]
  · obtain ⟨hmin, hlt⟩ := adjusted_bounds (hs ▸ h0)
    rw [← hs] at hmin hlt
    rcases hp.locate h0 hd (Nat.le_of_lt hlt) with ⟨c, n, h₁, hsuits, hloc, hI₁, ht₁, hdiff₁⟩ |
      ⟨hloc, hnone⟩
    · obtain ⟨l₁, l₂, rfl, hc⟩ := at_split.mp hsuits.filed
      obtain ⟨hco₁, -, hco₂⟩ := coalesced_append.mp hp.coalesced
      obtain ⟨h', l', L', hprep, hp', hob⟩ :=
        blockPrepareUsed_pool ht₁ hp.room hc hI₁ hd hmin (Nat.le_of_lt hlt) hco₁ hco₂
      refine Or.inl ⟨c, n, h', l', L', ?_, h0, ⟨⟨hob.fresh, hob.used, hob.span_eq, fun y hy => ?_⟩, hsuits⟩,
        hp'⟩
      · simp only [tlsfMalloc, hadjust, Option.bind_eq_bind, Option.bind_some, hloc, hprep]
      · exact (hob.differ y hy).trans (hdiff₁ y hy)
    · refine Or.inr ⟨?_, Or.inr hnone⟩
      simp only [tlsfMalloc, hadjust, Option.bind_eq_bind, Option.bind_some, hloc,
        blockPrepareUsed, ne_eq, not_true, if_false, Option.pure_def]

end

end HyperCore.Tlsf
