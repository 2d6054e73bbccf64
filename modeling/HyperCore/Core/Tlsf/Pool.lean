import HyperCore.Core.Tlsf.Index

/-!
# The invariant of a heap with one pool

`Pool null b h l L`: the blocks of `l` tile the pool from address `b` on, no two free ones are
neighbours, and the table of free lists holds exactly the free ones.

`Internal` are the bytes that the allocator may write: those of the pool that are not the data of
a block in use, and the links of the dummy block. That the links of free blocks, the size fields
and the ends of free blocks do not overlap is said once here (`Tiles.links`, `Index.tile`), so
that an operation on one of the two structures leaves the other.
-/

namespace HyperCore.Tlsf

open ByteMem MachineInt Segregated

/-- The free block of `n` bytes at `a`. -/
def FreeIn (b : Nat) (l : List Blk) (a n : Nat) : Prop := At b l a ⟨n, true⟩

/-- The block of `n` bytes in use at `a`. -/
def UsedIn (b : Nat) (l : List Blk) (a n : Nat) : Prop := At b l a ⟨n, false⟩

/-- Where the pool lies: after the control structure, and inside the address space. -/
structure Room (null b bytes : Nat) : Prop where
  null_pos : 0 < null
  null_le : null + 32 ≤ b + 8
  dvd : 8 ∣ b
  fin_le : b + bytes + 16 ≤ 2 ^ 64
  bytes_le : bytes ≤ 2 ^ 32

/-- No two neighbours are free. -/
def Coalesced : Bool → List Blk → Prop
  | _, [] => True
  | prevFree, x :: l => ¬ (prevFree = true ∧ x.free = true) ∧ Coalesced x.free l

structure Pool (null b : Nat) (h : Heap) (l : List Blk) (L : Nat → Nat → List Nat) : Prop where
  room : Room null b (span l)
  tiles : Tiles h.bytes b false l
  coalesced : Coalesced false l
  index : Index null h (FreeIn b l) L

/-- The data of a block in use. -/
def Data (b : Nat) (l : List Blk) (y : Nat) : Prop := ∃ a n, UsedIn b l a n ∧ Within (a + 16) n y

def Internal (null b : Nat) (l : List Blk) (y : Nat) : Prop :=
  ¬ Data b l y ∧ (Within (b + 8) (span l + 8) y ∨ Within (null + 16) 16 y)

section

variable {null a b c k n y : Nat} {h : Heap} {m m' : Nat → BitVec 8} {prevFree : Bool} {x : Blk}
  {l l₁ l₂ : List Blk} {L : Nat → Nat → List Nat} {F : Nat → Nat → Prop}

/-! ## Blocks of the list -/

theorem coalesced_append : Coalesced prevFree (l₁ ++ l₂) ↔
    Coalesced prevFree l₁ ∧ Coalesced (lastFree prevFree l₁) l₂ := by
  induction l₁ generalizing prevFree with
  | nil => exact ⟨fun h => ⟨trivial, h⟩, And.right⟩
  | cons x l₁ ih => rw [List.cons_append, Coalesced, Coalesced, ih, lastFree, and_assoc]

/-- A block in use may follow any block. -/
theorem Coalesced.anywhere (h : Coalesced true l) (f : Bool) : Coalesced f l := by
  cases l with
  | nil => trivial
  | cons x l =>
    refine ⟨fun hcon => h.1 ⟨rfl, hcon.2⟩, h.2⟩

/-- The free blocks, after one is marked in use. -/
theorem freeIn_mark : FreeIn b (l₁ ++ ⟨n, false⟩ :: l₂) a k ↔
    FreeIn b (l₁ ++ ⟨n, true⟩ :: l₂) a k ∧ a ≠ b + span l₁ := by
  simp only [FreeIn, at_append, At, Blk.mk.injEq, and_true, Bool.true_eq_false, and_false, false_or]
  constructor
  · rintro (ha | ha)
    · have := ha.bounds
      exact ⟨Or.inl ha, by omega⟩
    · have := ha.bounds
      exact ⟨Or.inr (Or.inr ha), by omega⟩
  · rintro ⟨ha | ⟨ha, -⟩ | ha, hne⟩
    · exact Or.inl ha
    · exact absurd ha hne
    · exact Or.inr ha

/-- The blocks in use, after one is marked free. -/
theorem usedIn_mark : UsedIn b (l₁ ++ ⟨n, true⟩ :: l₂) a k ↔
    UsedIn b (l₁ ++ ⟨n, false⟩ :: l₂) a k ∧ a ≠ b + span l₁ := by
  simp only [UsedIn, at_append, At, Blk.mk.injEq, and_true, Bool.false_eq_true, and_false, false_or]
  constructor
  · rintro (ha | ha)
    · have := ha.bounds
      exact ⟨Or.inl ha, by omega⟩
    · have := ha.bounds
      exact ⟨Or.inr (Or.inr ha), by omega⟩
  · rintro ⟨ha | ⟨ha, -⟩ | ha, hne⟩
    · exact Or.inl ha
    · exact absurd ha hne
    · exact Or.inr ha

/-- A block in use is not a free one. -/
theorem UsedIn.ne_free (hu : UsedIn b l a k) (hf : FreeIn b l c n) : a ≠ c := by
  rintro rfl
  rcases hu.apart hf with ⟨-, he⟩ | hlt | hlt
  · cases he
  · simp only at hlt
    omega
  · simp only at hlt
    omega

theorem Tiles.sized (ht : Tiles m b prevFree l) (ha : At b l a x) : Sized x := by
  obtain ⟨l₁, l₂, rfl, -⟩ := at_split.mp ha
  exact (tiles_cons.mp (tiles_append.mp ht).2).1

theorem Tiles.header (ht : Tiles m b prevFree l) (ha : At b l a x) : ∃ f, Header m a x f := by
  obtain ⟨l₁, l₂, rfl, rfl⟩ := at_split.mp ha
  exact ⟨_, (tiles_cons.mp (tiles_append.mp ht).2).2.1⟩

/-- Blocks are aligned. -/
theorem Tiles.addr_dvd (ht : Tiles m b prevFree l) (hb : 8 ∣ b) (ha : At b l a x) : 8 ∣ a := by
  induction l generalizing b prevFree with
  | nil => exact ha.elim
  | cons z l ih =>
    obtain ⟨hsized, -, -, hrest⟩ := tiles_cons.mp ht
    have hz := hsized.dvd
    rcases ha with ⟨rfl, -⟩ | ha
    · exact hb
    · exact ih hrest (by omega) ha

/-- Only the size fields matter, and the ends of free blocks. -/
theorem Tiles.congr_at (ht : Tiles m b prevFree l)
    (hm : ∀ a x, At b l a x → ∀ y, Within (a + 8) 8 y ∨ (x.free = true ∧ Within (a + 8 + x.size) 8 y) →
      m' y = m y)
    (hend : ∀ y, Within (b + span l + 8) 8 y → m' y = m y) : Tiles m' b prevFree l := by
  induction l generalizing b prevFree with
  | nil => exact ⟨trivial, ht.2.congr fun y h1 h2 => hend y ⟨h1, h2⟩⟩
  | cons x l ih =>
    obtain ⟨hsized, hhead, hfoot, hrest⟩ := tiles_cons.mp ht
    have hx := hm b x (Or.inl ⟨rfl, rfl⟩)
    refine tiles_cons.mpr ⟨hsized, hhead.congr fun y h1 h2 => hx y (Or.inl ⟨h1, h2⟩),
      fun hfree => ?_, ih hrest (fun a z hz => hm a z (Or.inr hz)) fun y hy => hend y ?_⟩
    · rw [word_congr fun y h1 h2 => hx y (Or.inr ⟨hfree, h1, h2⟩)]
      exact hfoot hfree
    · rw [span_cons, ← Nat.add_assoc, ← Nat.add_assoc]
      exact hy

theorem Tiles.filed (ht : Tiles m b prevFree l) (hr : Room null b (span l)) :
    Filed null (FreeIn b l) := by
  have hnull := hr.null_le
  have hfin := hr.fin_le
  have hbytes := hr.bytes_le
  refine ⟨fun h h' => ?_, fun h h' => ?_, fun h => ?_, fun {a n} h => ?_, fun h => ?_,
    hr.null_pos, by omega⟩
  · rcases h.apart h' with ⟨-, he⟩ | hlt | hlt
    · exact congrArg Blk.size he
    · omega
    · omega
  · have hs := (ht.sized h).min
    have hs' := (ht.sized h').min
    rcases h.apart h' with ⟨he, -⟩ | hlt | hlt
    · exact Or.inl he
    · simp only at hs hs' hlt
      omega
    · simp only at hs hs' hlt
      omega
  · have := h.bounds
    omega
  · have := h.bounds
    change n < 2 ^ 32
    simp only at this
    omega
  · have := h.bounds
    have hs := (ht.sized h).min
    simp only at this hs
    omega

/-! ## What does not overlap -/

/-- An edit of links leaves the tiles. -/
theorem Tiles.links (ht : Tiles m b prevFree l) (hr : Room null b (span l))
    (hF : ∀ a n, F a n → FreeIn b l a n) (hm : Differ (LinkAt null F) m m') :
    Tiles m' b prevFree l := by
  have hnull := hr.null_le
  refine ht.congr_at (fun a x ha y hy => hm y ?_) fun y hy => hm y ?_
  · have hx := (ht.sized ha).min
    have hbound := ha.bounds
    rintro (hlink | ⟨c, n, hc, hlink⟩)
    · simp only [Within] at hy hlink
      omega
    · have hn := (ht.sized (hF c n hc)).min
      simp only [Within] at hy hlink hn
      rcases ha.apart (hF c n hc) with ⟨rfl, rfl⟩ | hlt | hlt
      · omega
      · omega
      · simp only at hlt
        omega
  · rintro (hlink | ⟨c, n, hc, hlink⟩)
    · simp only [Within] at hy hlink
      omega
    · have hbound := (hF c n hc).bounds
      have hn := (ht.sized (hF c n hc)).min
      simp only [Within] at hy hlink hn hbound
      omega

/-- A write to the tile of a block that is not filed, or to the size field after it, leaves the
table. -/
theorem Index.tile (hI : Index null h F L) (hr : Room null b (span l)) (ha : At b l c x)
    (hF : ∀ a n, F a n → ∃ z, At b l a z ∧ 24 ≤ z.size ∧ a ≠ c)
    (hm : Differ (Within (c + 8) (x.size + 16)) h.bytes m) : Index null { h with bytes := m } F L := by
  have hnull := hr.null_le
  have hbound := ha.bounds
  refine hI.congr fun y hy => hm y ?_
  simp only [Within]
  rcases hy with hlink | ⟨d, n, hd, hlink⟩
  · simp only [Within] at hlink
    omega
  · obtain ⟨z, hz, hmin, hne⟩ := hF d n hd
    simp only [Within] at hlink
    rcases ha.apart hz with ⟨he, -⟩ | hlt | hlt
    · exact absurd he.symm hne
    · omega
    · omega

/-- Links are no data of blocks in use. -/
theorem link_internal (ht : Tiles m b prevFree l) (hr : Room null b (span l))
    (hF : ∀ a n, F a n → FreeIn b l a n) (hy : LinkAt null F y) : Internal null b l y := by
  have hnull := hr.null_le
  constructor
  · rintro ⟨a, n, ha, hin⟩
    have hbound := ha.bounds
    rcases hy with hlink | ⟨d, k, hd, hlink⟩
    · simp only [Within] at hin hlink
      omega
    · have hk := (ht.sized (hF d k hd)).min
      simp only [Within] at hin hlink hk hbound
      rcases ha.apart (hF d k hd) with ⟨-, he⟩ | hlt | hlt
      · cases he
      · simp only at hlt
        omega
      · simp only at hlt
        omega
  · rcases hy with hlink | ⟨d, k, hd, hlink⟩
    · exact Or.inr hlink
    · have hk := (ht.sized (hF d k hd)).min
      have hbound := (hF d k hd).bounds
      simp only [Within] at hlink hk hbound ⊢
      omega

/-- The tile of a free block, with the size field after it, holds no data of a block in use. -/
theorem tile_internal (hc : FreeIn b l c n) (hy : Within (c + 8) (n + 16) y) :
    Internal null b l y := by
  have hbound := hc.bounds
  simp only [Within] at hy hbound
  constructor
  · rintro ⟨a, k, ha, hin⟩
    simp only [Within] at hin
    rcases ha.apart hc with ⟨-, he⟩ | hlt | hlt
    · cases he
    · simp only at hlt
      omega
    · simp only at hlt
      omega
  · left
    simp only [Within]
    omega

/-- Size fields are no data. -/
theorem header_internal (hx : At b l c x) (hy : Within (c + 8) 8 y) : Internal null b l y := by
  have hbound := hx.bounds
  simp only [Within] at hy
  refine ⟨?_, Or.inl (by simp only [Within]; omega)⟩
  rintro ⟨a, k, ha, hin⟩
  simp only [Within] at hin
  rcases ha.apart hx with ⟨rfl, -⟩ | hlt | hlt
  · omega
  · simp only at hlt
    omega
  · omega

/-- The size field of the end is no data. -/
theorem sentinel_internal (hy : Within (b + span l + 8) 8 y) : Internal null b l y := by
  simp only [Within] at hy
  refine ⟨?_, Or.inl (by simp only [Within]; omega)⟩
  rintro ⟨a, k, ha, hin⟩
  have hbound := ha.bounds
  simp only [Within] at hin hbound
  omega

/-- Whatever the owners of the blocks in use write into them, the heap stays one. -/
theorem Pool.write (hp : Pool null b h l L) (hm : Differ (Data b l) h.bytes m) :
    Pool null b { h with bytes := m } l L := by
  have hkeep : ∀ y, Internal null b l y → m y = h.bytes y := fun y hy => hm y hy.1
  refine ⟨hp.room, hp.tiles.congr_at (fun a x ha y hy => hkeep y ?_) (fun y hy => hkeep y ?_),
    hp.coalesced, hp.index.congr fun y hy => hkeep y ?_⟩
  · rcases hy with hy | ⟨hfree, hy⟩
    · exact header_internal ha hy
    · obtain ⟨n, f⟩ := x
      obtain rfl : f = true := hfree
      refine tile_internal ha ?_
      simp only [Within] at hy ⊢
      omega
  · exact sentinel_internal hy
  · exact link_internal hp.tiles hp.room (fun _ _ hk => hk) hy

theorem Index.congr_set {F' : Nat → Nat → Prop} (hI : Index null h F L)
    (hFF : ∀ a n, F a n ↔ F' a n) : Index null h F' L := by
  obtain rfl : F = F' := by
    funext a n
    exact propext (hFF a n)
  exact hI

end

end HyperCore.Tlsf
