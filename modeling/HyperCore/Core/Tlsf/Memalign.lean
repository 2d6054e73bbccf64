import HyperCore.Core.Tlsf.Realloc

/-!
# `tlsf_memalign`

More is taken than asked for, so that a boundary of the alignment lies in the block with room for
a free block before it. The gap is filed, and what is left is handed out like a block of
`tlsf_malloc`.
-/

namespace HyperCore.Tlsf

open ByteMem MachineInt Segregated

section

variable {null a b c n k p q gap size y : Nat} {h : Heap} {m m' : Nat → BitVec 8}
  {prevFree free : Bool} {x : Blk} {l l₁ l₂ : List Blk} {L : Nat → Nat → List Nat}
  {F : Nat → Nat → Prop} {F' : Nat → Nat → List Nat}

theorem blockTrimFreeLeading_spec (ht : Tiles h.bytes b false (l₁ ++ ⟨n, true⟩ :: l₂))
    (hr : Room null b (span (l₁ ++ ⟨n, true⟩ :: l₂))) (hc : c = b + span l₁)
    (hI : Index null h (fun a k => FreeIn b (l₁ ++ ⟨n, true⟩ :: l₂) a k ∧ a ≠ c) L)
    (hd : 8 ∣ gap) (hmin : 32 ≤ gap) (hfit : 32 + gap ≤ n) :
    ∃ h' L', blockTrimFreeLeading null h c gap = some (h', c + gap) ∧
      Tiles h'.bytes b false ((l₁ ++ [⟨gap - 8, true⟩]) ++ ⟨n - gap, true⟩ :: l₂) ∧
      Index null h' (fun a k =>
        FreeIn b ((l₁ ++ [⟨gap - 8, true⟩]) ++ ⟨n - gap, true⟩ :: l₂) a k ∧ a ≠ c + gap) L' ∧
      Differ (Internal null b (l₁ ++ ⟨n, true⟩ :: l₂)) h.bytes h'.bytes := by
  have hsuffix := (tiles_append.mp ht).2
  rw [← hc] at hsuffix
  obtain ⟨hsized, hhead, -, -⟩ := tiles_cons.mp hsuffix
  have hfin := hr.fin_le
  have hbytes := hr.bytes_le
  simp only [span_append, span_cons] at hfin hbytes
  have hn8 : 8 ∣ n := hsized.dvd
  have hsize : blockSize h c = n := hhead.blockSize_eq hsized.dvd (show n < 2 ^ 64 by omega)
  have hat : FreeIn b (l₁ ++ ⟨n, true⟩ :: l₂) c n := at_split.mpr ⟨l₁, l₂, rfl, hc⟩
  have hcan : blockCanSplit h c gap = true := by
    rw [blockCanSplit_eq hsize (by omega), decide_eq_true_eq]
    exact hfit
  have hc8 := ht.addr_dvd hr.dvd hat
  obtain ⟨g, hg⟩ : ∃ g, g = gap - 8 := ⟨_, rfl⟩
  obtain ⟨r, hrem⟩ : ∃ r, r = c + gap := ⟨_, rfl⟩
  obtain ⟨q, hq⟩ : ∃ q, q = n - gap := ⟨_, rfl⟩
  have hg8 : 8 ∣ g := by omega
  have hgmin : 24 ≤ g := by omega
  obtain ⟨m₁, f, hsplit, hhead₁, htiles₁, hdiff₁⟩ := blockSplit_spec hsuffix (n := g)
    ⟨hg8, hgmin⟩ (show 32 + g ≤ n by omega) hc8 (by simp only [span_cons]; omega)
  simp only at hsplit htiles₁ hdiff₁ hhead₁
  rw [show c + 8 + g = r by omega] at hsplit htiles₁
  rw [show n - (g + 8) = q by omega] at htiles₁
  -- the second half is told about the first, and the first linked to it
  obtain ⟨m₂, hflag, htiles₂, hdiff₂⟩ := Tiles.setPrevFree (h := { h with bytes := m₁ }) htiles₁
  have hhead₂ : Header m₂ c ⟨g, true⟩ (lastFree false l₁) :=
    hhead₁.congr fun y h1 h2 => hdiff₂ y (by simp only [Within]; omega)
  obtain ⟨m₃, hm₃⟩ : ∃ m, m = put m₂ r c 8 := ⟨_, rfl⟩
  have hput₃ : ∀ y, ¬ (r ≤ y ∧ y < r + 8) → m₃ y = m₂ y := fun y hy => hm₃ ▸ put_apart hy
  have hlink : blockLinkNext { h with bytes := m₂ } c = some ({ h with bytes := m₃ }, r) := by
    have hl := Header.blockLinkNext_eq (h := { h with bytes := m₂ }) hhead₂ hg8
      (show 0 < g by omega) (show c + 8 + g < 2 ^ 64 by omega)
    rw [hl, hm₃, hrem]
    simp only [show c + 8 + g = c + gap by omega]
  have hkeep : ∀ y, ¬ (Within (c + 8) 8 y ∨ Within r 16 y ∨ Within (c + 8 + n) 16 y) →
      m₃ y = h.bytes y := by
    intro y hy
    simp only [Within, not_or] at hy
    rw [hput₃ y (by omega), hdiff₂ y (by simp only [Within]; omega)]
    exact hdiff₁ y (by simp only [Within]; omega)
  have hnew : Tiles m₃ b false ((l₁ ++ [⟨g, true⟩]) ++ ⟨q, true⟩ :: l₂) := by
    rw [List.append_assoc]
    refine ht.splice ?_ fun y hy => hkeep y (by simp only [Within]; omega)
    rw [← hc]
    refine tiles_cons.mpr ⟨⟨hg8, hgmin⟩, hhead₂.congr fun y h1 h2 => hput₃ y (by omega),
      fun _ => ?_, ?_⟩
    · change word m₃ (c + 8 + g) = c
      rw [show c + 8 + g = r by omega, hm₃, word_put _ _ (by omega)]
    · change Tiles m₃ (c + 8 + g) true _
      rw [show c + 8 + g = r by omega]
      exact htiles₂.congr fun y h1 _ => hput₃ y (by omega)
  have hspan : span ((l₁ ++ [⟨g, true⟩]) ++ ⟨q, true⟩ :: l₂) = span (l₁ ++ ⟨n, true⟩ :: l₂) := by
    simp only [span_append, span_cons, span_nil]
    omega
  -- the first half is filed
  have hnewfiled := (hnew.filed (hspan ▸ hr)).mono
    (G := fun a k => FreeIn b ((l₁ ++ [⟨g, true⟩]) ++ ⟨q, true⟩ :: l₂) a k ∧ a ≠ r)
    fun a k hk => hk.1
  have hset : ∀ a k, FreeIn b ((l₁ ++ [⟨g, true⟩]) ++ ⟨q, true⟩ :: l₂) a k ∧ a ≠ r ↔
      (FreeIn b (l₁ ++ ⟨n, true⟩ :: l₂) a k ∧ a ≠ c) ∨ (a = c ∧ k = g) := by
    intro a k
    have hr' : b + span (l₁ ++ [⟨g, true⟩]) = r := by
      simp only [span_append, span_cons, span_nil]
      omega
    simp only [FreeIn, at_append, At, hr', Blk.mk.injEq, and_true, or_false, ← hc,
      show r + 8 + q = c + 8 + n by omega]
    constructor
    · rintro ⟨(ha | ha) | ha | ha, hne⟩
      · have := ha.bounds
        exact Or.inl ⟨Or.inl ha, by omega⟩
      · exact Or.inr ha
      · exact absurd ha.1 hne
      · have := ha.bounds
        exact Or.inl ⟨Or.inr (Or.inr ha), by omega⟩
    · rintro (⟨ha | ha | ha, hne⟩ | ⟨rfl, rfl⟩)
      · have := ha.bounds
        exact ⟨Or.inl (Or.inl ha), by omega⟩
      · exact absurd ha.1 hne
      · have := ha.bounds
        exact ⟨Or.inr (Or.inr ha), by omega⟩
      · exact ⟨Or.inl (Or.inr ⟨rfl, rfl⟩), by omega⟩
  have hI₃ : Index null { h with bytes := m₃ }
      (fun a k => FreeIn b (l₁ ++ ⟨n, true⟩ :: l₂) a k ∧ a ≠ c) L := by
    refine hI.tile hr hat (fun a k hk => ⟨_, hk.1, (ht.sized hk.1).min, hk.2⟩) fun y hy => ?_
    refine hkeep y ?_
    simp only [Within] at hy ⊢
    omega
  obtain ⟨h', hins, hI', hdiff'⟩ :=
    insertFreeBlock_spec hI₃ hnewfiled hset (fun _ hk => hk.2 rfl) hc8
  have hsize₃ : blockSize { h with bytes := m₃ } c = g := by
    have hh : Header m₃ c ⟨g, true⟩ (lastFree false l₁) :=
      hhead₂.congr fun y h1 h2 => hput₃ y (by omega)
    exact Header.blockSize_eq (h := { h with bytes := m₃ }) hh hg8 (show g < 2 ^ 64 by omega)
  rw [← hrem, ← hg, ← hq]
  refine ⟨h', _, ?_, hnew.links (hspan ▸ hr) (fun a k hk => hk.1) hdiff', hI', fun y hy => ?_⟩
  · simp only [blockTrimFreeLeading, hcan, if_true, blockHeaderOverhead, ← hg, hsplit, hflag, hlink,
      blockInsert, hsize₃, hins, Option.bind_eq_bind, Option.bind_some]
    rfl
  · have hnoty : ¬ Within (c + 8) (n + 16) y := fun hin => hy (tile_internal hat hin)
    rw [hdiff' y fun hlinky => ?_]
    · refine hkeep y ?_
      simp only [Within] at hnoty ⊢
      omega
    · refine hy ?_
      rcases hlinky with hn' | ⟨a, k, hk, hin⟩
      · exact link_internal (F := FreeIn b _) ht hr (fun _ _ hk => hk) (Or.inl hn')
      · rcases (hset a k).mp hk with hold | ⟨rfl, rfl⟩
        · exact link_internal (F := FreeIn b _) ht hr (fun _ _ hk => hk) (Or.inr ⟨a, k, hold.1, hin⟩)
        · refine tile_internal hat ?_
          simp only [Within] at hin ⊢
          omega

/-! ## Boundaries -/

/-- The least multiple of `P` from `v` on. -/
def roundUp (v P : Nat) : Nat := (v + (P - 1)) / P * P

theorem roundUp_spec {v P : Nat} (hP : 0 < P) :
    P ∣ roundUp v P ∧ v ≤ roundUp v P ∧ roundUp v P < v + P := by
  have hdiv := Nat.div_add_mod (v + (P - 1)) P
  have hmod := Nat.mod_lt (v + (P - 1)) hP
  have heq : roundUp v P = P * ((v + (P - 1)) / P) := Nat.mul_comm _ _
  refine ⟨Nat.dvd_mul_left _ _, ?_, ?_⟩
  · omega
  · omega

theorem roundUp_unique {v P r : Nat} (hP : 0 < P) (hd : P ∣ r) (hle : v ≤ r) (hlt : r < v + P) :
    roundUp v P = r := by
  obtain ⟨hd', hle', hlt'⟩ := roundUp_spec (v := v) hP
  obtain ⟨i, hi⟩ := hd
  obtain ⟨j, hj⟩ := hd'
  rcases Nat.lt_trichotomy i j with hij | rfl | hij
  · have : P * (i + 1) ≤ P * j := Nat.mul_le_mul_left P hij
    rw [Nat.mul_add, Nat.mul_one] at this
    omega
  · omega
  · have : P * (j + 1) ≤ P * i := Nat.mul_le_mul_left P hij
    rw [Nat.mul_add, Nat.mul_one] at this
    omega

/-- Between multiples there is room for one more. -/
theorem add_le_of_dvd {P i j : Nat} (hi : P ∣ i) (hj : P ∣ j) (hlt : i < j) : i + P ≤ j := by
  obtain ⟨u, rfl⟩ := hi
  obtain ⟨v, rfl⟩ := hj
  have huv : u + 1 ≤ v := Nat.lt_of_mul_lt_mul_left hlt
  calc P * u + P = P * (u + 1) := (Nat.mul_succ P u).symm
    _ ≤ P * v := Nat.mul_le_mul_left P huv

theorem toNat_mask (hk : k ≤ 63) : (BitVec.ofNat 64 (2 ^ k) - 1).toNat = 2 ^ k - 1 := by
  have hlt : 2 ^ k < 2 ^ 64 := Nat.pow_lt_pow_right (by decide) (by omega)
  have hpos : 0 < 2 ^ k := Nat.two_pow_pos k
  have hone : (1 : SizeT).toNat = 1 := rfl
  rw [BitVec.toNat_sub, BitVec.toNat_ofNat, hone]
  omega

theorem alignUp_eq (hk : k ≤ 63) (v : SizeT) (hlt : v.toNat + (2 ^ k - 1) < 2 ^ 64) :
    ∃ r, alignUp v (BitVec.ofNat 64 (2 ^ k)) = some r ∧ r.toNat = roundUp v.toNat (2 ^ k) := by
  refine ⟨_, by rw [alignUp, tlsfAssert_true (pow_two_mask hk)]; rfl, ?_⟩
  rw [toNat_and_not_mask _ hk, BitVec.toNat_add, toNat_mask hk, Nat.mod_eq_of_lt hlt]
  rfl

theorem alignPtr_eq (hk : k ≤ 63) {ptr : Nat} (hlt : ptr + (2 ^ k - 1) < 2 ^ 64) :
    alignPtr ptr (BitVec.ofNat 64 (2 ^ k)) = some (roundUp ptr (2 ^ k)) := by
  rw [alignPtr, tlsfAssert_true (pow_two_mask hk)]
  change some (BitVec.toNat _) = _
  rw [toNat_and_not_mask _ hk, BitVec.toNat_add, toNat_mask hk, BitVec.toNat_ofNat,
    Nat.mod_eq_of_lt (show ptr < 2 ^ 64 by omega), Nat.mod_eq_of_lt hlt]
  rfl

/-- The gap to a boundary is none, or large enough for a block. -/
theorem widenGap_spec {P ptr : Nat} (hP : P = 2 ^ k) (hk : 4 ≤ k) (hk' : k ≤ 62)
    (hptr : 8 ∣ ptr) (hlt : ptr + P + 32 ≤ 2 ^ 64) :
    ∃ aligned gap, widenGap ptr (roundUp ptr P) (toUInt64 ((roundUp ptr P : Int) - ptr))
        sizeofBlockHeader (BitVec.ofNat 64 P) = some (aligned, gap) ∧
      P ∣ ptr + gap ∧ 8 ∣ gap ∧ (gap = 0 ∨ 32 ≤ gap) ∧ gap ≤ P + 24 := by
  have hP16 : 16 ∣ P := by
    rw [hP]
    exact Nat.pow_dvd_pow 2 hk
  have hpos : 0 < P := hP ▸ Nat.two_pow_pos k
  obtain ⟨hd, hle, hlt'⟩ := roundUp_spec (v := ptr) hpos
  obtain ⟨r, hr⟩ : ∃ r, r = roundUp ptr P := ⟨_, rfl⟩
  rw [← hr] at hd hle hlt' ⊢
  have h8r : 8 ∣ r := Nat.dvd_trans (Nat.dvd_trans (by decide) hP16) hd
  have hgap : toUInt64 ((r : Int) - ptr) = r - ptr := by
    simp only [toUInt64]
    omega
  have hP64 : P < 2 ^ 64 := hP ▸ Nat.pow_lt_pow_right (by decide) (by omega)
  have hPnat : (BitVec.ofNat 64 P).toNat = P := by
    rw [BitVec.toNat_ofNat, Nat.mod_eq_of_lt hP64]
  rw [hgap]
  by_cases hsmall : r - ptr ≠ 0 ∧ r - ptr < sizeofBlockHeader
  · obtain ⟨h0, h32⟩ := hsmall
    have h32' : r - ptr < 32 := h32
    obtain ⟨o, ho⟩ : ∃ o, o = max (sizeofBlockHeader - (r - ptr)) P := ⟨_, rfl⟩
    -- one boundary further on, or two of sixteen bytes
    obtain ⟨r', hr', hd', hrr, hge, hle', hwrap⟩ : ∃ r', roundUp (r + o) P = r' ∧ P ∣ r' ∧ r ≤ r' ∧
        32 ≤ r' - ptr ∧ r' - ptr ≤ P + 24 ∧ r + o + (P - 1) < 2 ^ 64 := by
      have ho' : o = max (32 - (r - ptr)) P := ho
      rcases Nat.lt_or_ge P 32 with hP32 | hP32
      · obtain rfl : P = 16 := by omega
        refine ⟨r + 32, roundUp_unique (by omega) (Nat.dvd_add hd (by decide)) ?_ ?_,
          Nat.dvd_add hd (by decide), by omega, by omega, by omega, by omega⟩
        · omega
        · omega
      · have hroom := add_le_of_dvd (Nat.dvd_add hd (Nat.dvd_refl P))
          (hP ▸ Nat.pow_dvd_pow 2 (by omega) : P ∣ 2 ^ 64) (show r + P < 2 ^ 64 by omega)
        refine ⟨r + P, roundUp_unique hpos (Nat.dvd_add hd (Nat.dvd_refl P)) ?_ ?_,
          Nat.dvd_add hd (Nat.dvd_refl P), by omega, by omega, by omega, by omega⟩
        · omega
        · omega
    have hr8 : 8 ∣ r' := Nat.dvd_trans (Nat.dvd_trans (by decide) hP16) hd'
    have halign : alignPtr (r + o) (BitVec.ofNat 64 P) = some r' := by
      have ho' : o = max (32 - (r - ptr)) P := ho
      rw [hP, alignPtr_eq (by omega) (by rw [← hP]; exact hwrap), ← hP, hr']
    have hgap' : toUInt64 ((r' : Int) - ptr) = r' - ptr := by
      simp only [toUInt64]
      omega
    refine ⟨r', r' - ptr, ?_, ?_, by omega, Or.inr hge, hle'⟩
    · rw [widenGap, if_pos ⟨h0, h32⟩]
      simp only [hPnat, ← ho, halign, hgap', Option.bind_eq_bind, Option.bind_some]
      rfl
    · rw [show ptr + (r' - ptr) = r' by omega]
      exact hd'
  · refine ⟨r, r - ptr, ?_, ?_, by omega, ?_, by omega⟩
    · rw [widenGap, if_neg hsmall]
      rfl
    · rw [show ptr + (r - ptr) = r by omega]
      exact hd
    · rw [not_and_or] at hsmall
      have hge : ¬ r - ptr < 32 ∨ r - ptr = 0 := hsmall.symm.imp id not_not.mp
      omega

/-! ## The allocation -/

/-- Taking the front off a located block, and handing out the rest. -/
theorem memalign_tail {h₁ : Heap} (hp : Pool null b h (l₁ ++ ⟨n, true⟩ :: l₂) L)
    (hc : c = b + span l₁) (ht₁ : Tiles h₁.bytes b false (l₁ ++ ⟨n, true⟩ :: l₂))
    (hI₁ : Index null h₁ (fun a k => FreeIn b (l₁ ++ ⟨n, true⟩ :: l₂) a k ∧ a ≠ c) F')
    (hdiff₁ : Differ (Internal null b (l₁ ++ ⟨n, true⟩ :: l₂)) h.bytes h₁.bytes)
    (hd : 8 ∣ size) (hmin : 24 ≤ size) (hg8 : 8 ∣ gap) (hgap : gap = 0 ∨ 32 ≤ gap)
    (hroom : size + gap + 8 ≤ n) (hroom' : gap + 32 ≤ n) :
    ∃ h₂ h' l' L', trimGap null h₁ c gap sizeofBlockHeader = some (h₂, c + gap) ∧
      blockPrepareUsed null h₂ (c + gap) size = some (h', c + gap + 16) ∧ Pool null b h' l' L' ∧
      Obtained null b h (l₁ ++ ⟨n, true⟩ :: l₂) (c + gap) (carved (n - gap) size) h' l' := by
  obtain ⟨hco₁, hcoc, hco₂⟩ := coalesced_append.mp hp.coalesced
  have hbytes := hp.room.bytes_le
  simp only [span_append, span_cons] at hbytes
  have hslt : size ≤ 2 ^ 32 := by omega
  rcases hgap with rfl | hgap
  · obtain ⟨h', l', L', hprep, hp', hob⟩ :=
      blockPrepareUsed_pool ht₁ hp.room hc hI₁ hd hmin hslt hco₁ hco₂
    exact ⟨h₁, h', l', L', rfl, hprep, hp', hob.fresh, hob.used, hob.span_eq,
      fun y hy => (hob.differ y hy).trans (hdiff₁ y hy)⟩
  · obtain ⟨h₂, L₂, htrim, ht₂, hI₂, hdiff₂⟩ :=
      blockTrimFreeLeading_spec ht₁ hp.room hc hI₁ hg8 hgap (by omega)
    have hlast : lastFree false l₁ = false := Bool.eq_false_iff.mpr fun hf => hcoc ⟨hf, rfl⟩
    have hspan : span ((l₁ ++ [⟨gap - 8, true⟩]) ++ ⟨n - gap, true⟩ :: l₂) =
        span (l₁ ++ ⟨n, true⟩ :: l₂) := by
      simp only [span_append, span_cons, span_nil]
      omega
    have hco₁' : Coalesced false (l₁ ++ [⟨gap - 8, true⟩]) := by
      refine coalesced_append.mpr ⟨hco₁, fun hcon => ?_, trivial⟩
      rw [hlast] at hcon
      exact Bool.false_ne_true hcon.1
    have hc' : c + gap = b + span (l₁ ++ [⟨gap - 8, true⟩]) := by
      simp only [span_append, span_cons, span_nil]
      omega
    obtain ⟨h', l', L', hprep, hp', hob⟩ :=
      blockPrepareUsed_pool ht₂ (hspan ▸ hp.room) hc' hI₂ hd hmin hslt hco₁' hco₂
    have hsame : SameUsed b (l₁ ++ ⟨n, true⟩ :: l₂)
        ((l₁ ++ [⟨gap - 8, true⟩]) ++ ⟨n - gap, true⟩ :: l₂) := by
      have hmerge : SameUsed b (l₁ ++ ⟨gap - 8, true⟩ :: ⟨n - gap, true⟩ :: l₂)
          (l₁ ++ ⟨gap - 8 + 8 + (n - gap), true⟩ :: l₂) := sameUsed_merge
      rw [show gap - 8 + 8 + (n - gap) = n by omega] at hmerge
      rw [List.append_assoc]
      exact ⟨fun a k => (hmerge.used a k).symm, hmerge.span_eq.symm⟩
    refine ⟨h₂, h', l', L', ?_, hprep, hp', fun j hj => hob.fresh j ((hsame.used _ _).mp hj),
      fun d j => ?_, hob.span_eq.trans hspan,
      fun y hy => ?_⟩
    · have hassert : tlsfAssert (gap ≥ sizeofBlockHeader) = some () := tlsfAssert_true hgap
      rw [trimGap, if_pos (by omega), hassert]
      exact htrim
    · rw [hob.used, hsame.used]
    · rw [hob.differ y fun hin => hy ?_, hdiff₂ y hy, hdiff₁ y hy]
      exact SameUsed.internal ⟨fun a k => (hsame.used a k).symm, hsame.span_eq.symm⟩ hin

/-- The size that is looked for, with room for the gap. -/
theorem sizeWithGap_eq {P s : Nat} (hP : P = 2 ^ k) (hk : 4 ≤ k) (hk' : k ≤ 62) (hs : s < 2 ^ 32) :
    ∃ v, adjustRequestSize (BitVec.ofNat 64 s + BitVec.ofNat 64 P + BitVec.ofNat 64 sizeofBlockHeader)
        (BitVec.ofNat 64 P) = some v ∧ (v = 0 ∨ (s + P + 32 ≤ v ∧ v < 2 ^ 32 ∧ 8 ∣ v)) := by
  have hP16 : 16 ∣ P := by
    rw [hP]
    exact Nat.pow_dvd_pow 2 hk
  have hP62 : P ≤ 2 ^ 62 := hP ▸ Nat.pow_le_pow_right (by decide) hk'
  have hpos : 0 < P := hP ▸ Nat.two_pow_pos k
  have hsum : BitVec.ofNat 64 s + BitVec.ofNat 64 P + BitVec.ofNat 64 sizeofBlockHeader =
      BitVec.ofNat 64 (s + P + 32) := by
    rw [← BitVec.ofNat_add, ← BitVec.ofNat_add]
    rfl
  have hnat : (BitVec.ofNat 64 (s + P + 32)).toNat = s + P + 32 := by
    rw [BitVec.toNat_ofNat, Nat.mod_eq_of_lt (by omega)]
  have hne : BitVec.ofNat 64 (s + P + 32) ≠ 0 := by
    intro he
    have := congrArg BitVec.toNat he
    rw [hnat] at this
    simp at this
  obtain ⟨r, hr, hrn⟩ := alignUp_eq (k := k) (by omega) (BitVec.ofNat 64 (s + P + 32))
    (by rw [hnat, ← hP]; omega)
  rw [hnat, ← hP] at hrn
  rw [← hP] at hr
  obtain ⟨hd, hle, -⟩ := roundUp_spec (v := s + P + 32) hpos
  rw [hsum, adjustRequestSize, if_pos hne]
  simp only [hr, Option.bind_eq_bind, Option.bind_some, Option.pure_def, hrn]
  have h8 : 8 ∣ roundUp (s + P + 32) P := Nat.dvd_trans (Nat.dvd_trans (by decide) hP16) hd
  by_cases hlt : roundUp (s + P + 32) P < blockSizeMax
  · refine ⟨_, by rw [if_pos hlt], Or.inr ?_⟩
    have hlt' : roundUp (s + P + 32) P < 2 ^ 32 := hlt
    have hmin : blockSizeMin ≤ roundUp (s + P + 32) P := by
      change 24 ≤ roundUp (s + P + 32) P
      omega
    rw [max_eq_left hmin]
    exact ⟨hle, hlt', h8⟩
  · exact ⟨0, by rw [if_neg hlt], Or.inl rfl⟩

/-- For every alignment of at least sixteen bytes, and every size that can be rounded up. -/
theorem tlsfMemalign_spec (hp : Pool null b h l L) (hk : 4 ≤ k) (hk' : k ≤ 62) {size : SizeT}
    (hsize : Accepted size) :
    (∃ a j h' l' L', tlsfMemalign null h (BitVec.ofNat 64 (2 ^ k)) size = some (h', a + 16) ∧
      2 ^ k ∣ a + 16 ∧ size.toNat ≤ j ∧ Pool null b h' l' L' ∧ Obtained null b h l a j h' l') ∨
    tlsfMemalign null h (BitVec.ofNat 64 (2 ^ k)) size = some (h, 0) := by
  obtain ⟨hs0, hsle⟩ := hsize.adjusted
  obtain ⟨s, hs⟩ : ∃ s, s = adjusted size.toNat := ⟨_, rfl⟩
  have hd : 8 ∣ s := hs ▸ adjusted_dvd _
  obtain ⟨hmin, hlt⟩ := adjusted_bounds hs0
  have hadjust := adjustRequestSize_eq size
  rw [← hs] at hs0 hsle hmin hlt hadjust
  obtain ⟨P, hP⟩ : ∃ P, P = 2 ^ k := ⟨_, rfl⟩
  have hP62 : P ≤ 2 ^ 62 := hP ▸ Nat.pow_le_pow_right (by decide) hk'
  have hP16 : 2 ^ 4 ≤ P := hP ▸ Nat.pow_le_pow_right (by decide) hk
  have hPnat : (BitVec.ofNat 64 P).toNat = P := by
    rw [BitVec.toNat_ofNat, Nat.mod_eq_of_lt (by omega)]
  obtain ⟨v, hv, hcases⟩ := sizeWithGap_eq hP hk hk' hlt
  have hbig : (BitVec.ofNat 64 P).toNat > alignSize := by
    rw [hPnat]
    change 8 < P
    omega
  rw [← hP]
  rcases hcases with rfl | ⟨hvle, hvlt, hv8⟩
  · refine Or.inr ?_
    simp only [tlsfMemalign, hadjust, hv, Option.bind_eq_bind, Option.bind_some, ne_eq, hs0,
      not_false_eq_true, hbig, and_self, if_true, blockLocateFree, Option.pure_def, not_true,
      if_false, blockPrepareUsed]
  · rcases hp.locate (by omega) hv8 (Nat.le_of_lt hvlt) with
      ⟨c, n, h₁, hsuits, hloc, hI₁, ht₁, hdiff₁⟩ | ⟨hloc, -⟩
    · obtain ⟨l₁, l₂, rfl, hc⟩ := at_split.mp hsuits.filed
      have hfits := hsuits.fits
      have hfin := hp.room.fin_le
      have hbytes := hp.room.bytes_le
      have hnull := hp.room.null_le
      simp only [span_append, span_cons] at hfin hbytes
      have hc8 := hp.tiles.addr_dvd hp.room.dvd hsuits.filed
      obtain ⟨aligned, gap, hwiden, halign, hg8, hgap, hgle⟩ := widenGap_spec hP hk hk'
        (show 8 ∣ c + 16 by omega) (by omega)
      obtain ⟨h₂, h', l', L', htrim, hprep, hp', hob⟩ := memalign_tail hp hc ht₁ hI₁ hdiff₁ hd hmin hg8
        hgap (by omega) (by omega)
      have hc0 : c ≠ 0 := by omega
      have hptr : alignPtr (blockToPtr c) (BitVec.ofNat 64 P) = some (roundUp (c + 16) P) := by
        have hin : c + 16 + (P - 1) < 2 ^ 64 := by omega
        rw [show blockToPtr c = c + 16 from rfl, hP]
        exact alignPtr_eq (by omega) (hP ▸ hin)
      have hle := le_carved (show s ≤ n - gap by omega)
      refine Or.inl ⟨c + gap, _, h', l', L', ?_, ?_, by omega, hp', hob⟩
      · simp only [tlsfMemalign, hadjust, hv, Option.bind_eq_bind, Option.bind_some, ne_eq, hs0,
          not_false_eq_true, hbig, and_self, if_true, hloc, hc0, hptr]
        rw [show blockToPtr c = c + 16 from rfl]
        simp only [hwiden, htrim, hprep, Option.bind_some]
      · rw [show c + gap + 16 = c + 16 + gap by omega]
        exact halign
    · refine Or.inr ?_
      simp only [tlsfMemalign, hadjust, hv, Option.bind_eq_bind, Option.bind_some, ne_eq, hs0,
        not_false_eq_true, hbig, and_self, if_true, hloc, not_true, if_false, blockPrepareUsed,
        Option.pure_def]

/-- Up to the alignment that every block has, nothing more is taken than by `tlsf_malloc`. -/
theorem tlsfMemalign_small (hp : Pool null b h l L) (hk : k ≤ 3) (size : SizeT) :
    tlsfMemalign null h (BitVec.ofNat 64 (2 ^ k)) size = tlsfMalloc null h size := by
  obtain ⟨s, hs⟩ : ∃ s, s = adjusted size.toNat := ⟨_, rfl⟩
  have hadjust := adjustRequestSize_eq size
  rw [← hs] at hadjust
  have hP8 : 2 ^ k ≤ 2 ^ 3 := Nat.pow_le_pow_right (by decide) hk
  have hdvd8 : 2 ^ k ∣ 2 ^ 3 := Nat.pow_dvd_pow 2 hk
  have hgap : ∀ x : SizeT, ∃ v, adjustRequestSize x (BitVec.ofNat 64 (2 ^ k)) = some v := by
    intro x
    by_cases hx : x = 0
    · exact ⟨0, by rw [adjustRequestSize, if_neg (not_not.mpr hx)]; rfl⟩
    · rw [adjustRequestSize, if_pos hx, alignUp, tlsfAssert_true (pow_two_mask (by omega))]
      exact ⟨_, rfl⟩
  obtain ⟨v, hv⟩ := hgap (BitVec.ofNat 64 s + BitVec.ofNat 64 (2 ^ k) + BitVec.ofNat 64 sizeofBlockHeader)
  have hsmall : ¬ (s ≠ 0 ∧ (BitVec.ofNat 64 (2 ^ k)).toNat > alignSize) := by
    rintro ⟨-, hgt⟩
    rw [BitVec.toNat_ofNat, Nat.mod_eq_of_lt (by omega)] at hgt
    exact absurd hgt (Nat.not_lt.mpr hP8)
  have hnone : blockLocateFree null h s = some (h, 0) →
      tlsfMemalign null h (BitVec.ofNat 64 (2 ^ k)) size = tlsfMalloc null h size := by
    intro hloc
    simp only [tlsfMemalign, tlsfMalloc, hadjust, hv, Option.bind_eq_bind, Option.bind_some,
      if_neg hsmall, hloc, ne_eq, not_true, if_false]
  by_cases h0 : s = 0
  · refine hnone ?_
    rw [blockLocateFree, if_pos h0]
    rfl
  · have hbounds := adjusted_bounds (hs ▸ h0)
    rw [← hs] at hbounds
    rcases hp.locate h0 (hs ▸ adjusted_dvd _) (Nat.le_of_lt hbounds.2) with
      ⟨c, n, h₁, hsuits, hloc, -⟩ | ⟨hloc, -⟩
    · have hc8 := hp.tiles.addr_dvd hp.room.dvd hsuits.filed
      have hcn := hsuits.filed.bounds
      have hfin := hp.room.fin_le
      have hpos := hp.room.null_le
      have hmin := (hp.tiles.sized hsuits.filed).min
      simp only at hcn hmin
      have hc0 : c ≠ 0 := by omega
      have haligned : alignPtr (c + 16) (BitVec.ofNat 64 (2 ^ k)) = some (c + 16) := by
        rw [alignPtr_eq (by omega) (by omega),
          roundUp_unique (Nat.two_pow_pos k) (Nat.dvd_trans hdvd8 (show 2 ^ 3 ∣ c + 16 by omega))
            (Nat.le_refl _) (by have := Nat.two_pow_pos k; omega)]
      have hzero : toUInt64 (((c + 16 : Nat) : Int) - (c + 16 : Nat)) = 0 := by
        rw [Int.sub_self]
        rfl
      simp only [tlsfMemalign, tlsfMalloc, hadjust, hv, Option.bind_eq_bind, Option.bind_some,
        if_neg hsmall, hloc, ne_eq, hc0, not_false_eq_true, if_true,
        show blockToPtr c = c + 16 from rfl, haligned, hzero, widenGap, trimGap, not_true,
        false_and, if_false, Option.pure_def]
    · exact hnone hloc

end

end HyperCore.Tlsf
