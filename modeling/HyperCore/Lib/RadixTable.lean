import Mathlib

/-!
# Radix tables in a flat memory

A multi-level translation table is a tree of 512-entry tables kept in the memory
it is walked in. This library states when such a tree is well formed (`Tree`: no
table is reachable on two different paths) and what the three memory updates of a
mapper do to it:

* `Extends`: a fresh, cleared table is linked below an empty entry;
* `Stores`: an entry of a last-level table is rewritten;
* `Cuts`: the link to a table is cleared.

Each update is described by what it changes and what it leaves alone, not by how
it is computed, so a client only has to show that its memory agrees with the old
one on the other entries of the tree. The entry type, its encoding (`Format`) and
the number of levels are parameters.
-/

namespace RadixTable

/-- How an entry encodes a link. `next` gives the base address of the table an
entry links to; `clear` is the content of a cleared entry. -/
structure Format (W : Type) where
  next : W → Option Nat
  clear : W
  next_clear : next clear = none

/-- A table has entries. -/
instance neZero_entries : NeZero 512 := ⟨by decide⟩

/-- The address of entry `i` of the table at `b`. -/
def slot (b i : Nat) : Nat := b + 8 * i

/-- Two index sequences agree on their first `k` indices. -/
def AgreeTo (k : Nat) (idx idx' : Nat → Fin 512) : Prop := ∀ j, j < k → idx j = idx' j

instance (k : Nat) (idx idx' : Nat → Fin 512) : Decidable (AgreeTo k idx idx') :=
  inferInstanceAs (Decidable (∀ j, j < k → idx j = idx' j))

/-- Distinct entries of aligned tables have distinct addresses. -/
theorem slot_inj {b b' : Nat} {i i' : Fin 512} (hb : b % 4096 = 0) (hb' : b' % 4096 = 0)
    (h : slot b i = slot b' i') : b = b' ∧ i = i' := by
  have hi := i.isLt
  have hi' := i'.isLt
  simp only [slot] at h
  exact ⟨by omega, Fin.ext (by omega)⟩

namespace AgreeTo

variable {k l : Nat} {idx idx' idx'' : Nat → Fin 512}

theorem refl (k : Nat) (idx : Nat → Fin 512) : AgreeTo k idx idx := fun _ _ => rfl

theorem symm (h : AgreeTo k idx idx') : AgreeTo k idx' idx := fun j hj => (h j hj).symm

theorem trans (h : AgreeTo k idx idx') (h' : AgreeTo k idx' idx'') : AgreeTo k idx idx'' :=
  fun j hj => (h j hj).trans (h' j hj)

theorem mono (h : AgreeTo k idx idx') (hl : l ≤ k) : AgreeTo l idx idx' :=
  fun j hj => h j (Nat.lt_of_lt_of_le hj hl)

theorem succ (h : AgreeTo k idx idx') (hk : idx k = idx' k) : AgreeTo (k + 1) idx idx' := by
  intro j hj
  rcases Nat.lt_or_ge j k with hlt | hge
  · exact h j hlt
  · rw [Nat.le_antisymm (Nat.le_of_lt_succ hj) hge]
    exact hk

end AgreeTo

section

variable {W : Type} (F : Format W)

/-- The table reached from `root` after following the first `k` indices. -/
def tableAt (m : Nat → W) (root : Nat) (idx : Nat → Fin 512) : Nat → Option Nat
  | 0 => some root
  | k + 1 => (tableAt m root idx k).bind fun b => F.next (m (slot b (idx k)))

/-- The tree below `root` with `depth` levels of links: tables are page aligned,
each is reached on one path only, and every entry above the last level is clear or
a link. -/
structure Tree (m : Nat → W) (root depth : Nat) : Prop where
  aligned : ∀ {idx k b}, k ≤ depth → tableAt F m root idx k = some b → b % 4096 = 0
  inj : ∀ {idx idx' k k' b}, k ≤ depth → k' ≤ depth → tableAt F m root idx k = some b →
    tableAt F m root idx' k' = some b → k = k' ∧ AgreeTo k idx idx'
  entry : ∀ {idx k b}, k < depth → tableAt F m root idx k = some b → ∀ i : Fin 512,
    m (slot b i) = F.clear ∨ (F.next (m (slot b i))).isSome

/-- What the walk of `idx` finds: the last-level entry, decoded by `leaf`. -/
def lookup {O : Type} (leaf : W → Option O) (m : Nat → W) (root depth : Nat)
    (idx : Nat → Fin 512) : Option O :=
  (tableAt F m root idx depth).bind fun b => leaf (m (slot b (idx depth)))

/-- `m'` agrees with `m` on every entry of the tree except entry `i₀` of table `b₀`. -/
def SameBut (m m' : Nat → W) (root depth b₀ : Nat) (i₀ : Fin 512) : Prop :=
  ∀ {idx k b}, k ≤ depth → tableAt F m root idx k = some b → ∀ i : Fin 512,
    (b ≠ b₀ ∨ i ≠ i₀) → m' (slot b i) = m (slot b i)

/-- A cleared table `c`, not part of the tree before, is linked into the clear entry
that `idx₀` selects in table `b₀` at level `k₀`. -/
structure Extends (m m' : Nat → W) (root depth : Nat) (idx₀ : Nat → Fin 512) (k₀ b₀ c : Nat) :
    Prop where
  level : k₀ < depth
  table : tableAt F m root idx₀ k₀ = some b₀
  was_clear : m (slot b₀ (idx₀ k₀)) = F.clear
  link : F.next (m' (slot b₀ (idx₀ k₀))) = some c
  cleared : ∀ i : Fin 512, m' (slot c i) = F.clear
  aligned : c % 4096 = 0
  fresh : ∀ {idx k}, k ≤ depth → tableAt F m root idx k ≠ some c
  same : SameBut F m m' root depth b₀ (idx₀ k₀)

/-- The last-level entry that `idx₀` selects in table `b₀` is rewritten. -/
structure Stores (m m' : Nat → W) (root depth : Nat) (idx₀ : Nat → Fin 512) (b₀ : Nat) : Prop where
  table : tableAt F m root idx₀ depth = some b₀
  same : SameBut F m m' root depth b₀ (idx₀ depth)

/-- The entry that `idx₀` selects in table `b₀` at level `k₀` is cleared. -/
structure Cuts (m m' : Nat → W) (root depth : Nat) (idx₀ : Nat → Fin 512) (k₀ b₀ : Nat) : Prop where
  level : k₀ < depth
  table : tableAt F m root idx₀ k₀ = some b₀
  cleared : m' (slot b₀ (idx₀ k₀)) = F.clear
  same : SameBut F m m' root depth b₀ (idx₀ k₀)

end

section

variable {W O : Type} {F : Format W} {m m' : Nat → W} {root depth : Nat}
variable {idx idx₀ : Nat → Fin 512} {k k₀ b b₀ c : Nat}

theorem tableAt_succ (h : tableAt F m root idx k = some b) :
    tableAt F m root idx (k + 1) = F.next (m (slot b (idx k))) := by
  simp [tableAt, h]

theorem tableAt_congr {idx' : Nat → Fin 512} (h : AgreeTo k idx idx') :
    tableAt F m root idx k = tableAt F m root idx' k := by
  induction k with
  | zero => rfl
  | succ k ih =>
    have hk : idx k = idx' k := h k (Nat.lt_succ_self k)
    simp only [tableAt, ih (h.mono (Nat.le_succ k)), hk]

theorem lookup_congr {leaf : W → Option O} {idx' : Nat → Fin 512}
    (h : AgreeTo (depth + 1) idx idx') :
    lookup F leaf m root depth idx = lookup F leaf m root depth idx' := by
  rw [lookup, lookup, tableAt_congr (h.mono (Nat.le_succ _)), h depth (Nat.lt_succ_self _)]

/-- A walk that stops stays stopped. -/
theorem tableAt_none {l : Nat} (hl : k ≤ l) (h : tableAt F m root idx k = none) :
    tableAt F m root idx l = none := by
  induction l with
  | zero => rwa [Nat.le_zero.mp hl] at h
  | succ l ih =>
    rcases Nat.lt_or_ge l k with hlt | hge
    · rwa [Nat.le_antisymm hl hlt] at h
    · simp [tableAt, ih hge]

theorem tableAt_isSome_of_le {l : Nat} (hl : k ≤ l) (h : (tableAt F m root idx l).isSome) :
    (tableAt F m root idx k).isSome := by
  cases hk : tableAt F m root idx k with
  | some b => rfl
  | none => rw [tableAt_none hl hk] at h; exact h

/-- Every level above a reached table is reached too. -/
theorem tableAt_prefix (h : tableAt F m root idx (k + 1) = some c) :
    ∃ b, tableAt F m root idx k = some b ∧ F.next (m (slot b (idx k))) = some c := by
  cases hk : tableAt F m root idx k with
  | none => simp [tableAt, hk] at h
  | some b => exact ⟨b, rfl, by simpa [tableAt, hk] using h⟩

/-- The frame rule. An update that touches one entry of the tree leaves every table
alone that is not below that entry. -/
theorem tableAt_frame (ht : Tree F m root depth) (hk₀ : k₀ ≤ depth)
    (hb₀ : tableAt F m root idx₀ k₀ = some b₀) (hs : SameBut F m m' root depth b₀ (idx₀ k₀))
    (idx : Nat → Fin 512) (k : Nat) :
    k ≤ depth → ¬ (k₀ < k ∧ AgreeTo (k₀ + 1) idx idx₀) →
      tableAt F m' root idx k = tableAt F m root idx k := by
  induction k with
  | zero => exact fun _ _ => rfl
  | succ k ih =>
    intro hk hno
    have hprev := ih (Nat.le_of_succ_le hk) fun h => hno ⟨Nat.lt_succ_of_lt h.1, h.2⟩
    cases hb : tableAt F m root idx k with
    | none => rw [hb] at hprev; simp [tableAt, hb, hprev]
    | some b =>
      rw [hb] at hprev
      rw [tableAt_succ hprev, tableAt_succ hb]
      -- the two walks would have to meet in the updated entry
      refine congrArg F.next (hs (Nat.le_of_succ_le hk) hb _ ?_)
      refine Classical.byContradiction fun hboth => ?_
      have hbb : b = b₀ := Classical.byContradiction fun h => hboth (.inl h)
      have hii : idx k = idx₀ k₀ := Classical.byContradiction fun h => hboth (.inr h)
      subst hbb
      obtain ⟨rfl, hag⟩ := ht.inj (Nat.le_of_succ_le hk) hk₀ hb hb₀
      exact hno ⟨Nat.lt_succ_self _, hag.succ hii⟩

/-- Formats that read the same links find the same tables. -/
theorem tableAt_same {W' : Type} {F' : Format W'} {n : Nat → W'}
    (hnext : ∀ a, F'.next (n a) = F.next (m a)) :
    tableAt F' n root idx k = tableAt F m root idx k := by
  induction k with
  | zero => rfl
  | succ k ih => simp only [tableAt, ih, hnext]

/-! ## Trees left alone, and the empty tree -/

/-- `m'` agrees with `m` on every entry of the tree. -/
def SameOn (F : Format W) (m m' : Nat → W) (root depth : Nat) : Prop :=
  ∀ idx k b, k ≤ depth → tableAt F m root idx k = some b → ∀ i : Fin 512,
    m' (slot b i) = m (slot b i)

namespace SameOn

theorem tableAt_eq (hs : SameOn F m m' root depth) (hk : k ≤ depth) :
    tableAt F m' root idx k = tableAt F m root idx k := by
  induction k with
  | zero => rfl
  | succ k ih =>
    have hprev := ih (Nat.le_of_succ_le hk)
    cases hb : tableAt F m root idx k with
    | none => rw [tableAt, tableAt, hprev, hb]; rfl
    | some b =>
      rw [hb] at hprev
      rw [tableAt_succ hprev, tableAt_succ hb, hs _ _ _ (Nat.le_of_succ_le hk) hb]

theorem tree (hs : SameOn F m m' root depth) (ht : Tree F m root depth) :
    Tree F m' root depth := by
  refine ⟨fun hk hb => ?_, fun hk hk' hb hb' => ?_, fun hk hb i => ?_⟩
  · exact ht.aligned hk (hs.tableAt_eq hk ▸ hb)
  · exact ht.inj hk hk' (hs.tableAt_eq hk ▸ hb) (hs.tableAt_eq hk' ▸ hb')
  · have hb' := hs.tableAt_eq (Nat.le_of_lt hk) ▸ hb
    rw [hs _ _ _ (Nat.le_of_lt hk) hb']
    exact ht.entry hk hb' i

theorem lookup_eq {leaf : W → Option O} (hs : SameOn F m m' root depth) :
    lookup F leaf m' root depth idx = lookup F leaf m root depth idx := by
  rw [lookup, lookup, hs.tableAt_eq (Nat.le_refl _)]
  cases hb : tableAt F m root idx depth with
  | none => rfl
  | some b => rw [Option.bind_some, Option.bind_some, hs _ _ _ (Nat.le_refl _) hb]

end SameOn

/-- A cleared root links nothing. -/
theorem tableAt_of_clear (h : ∀ i : Fin 512, m (slot root i) = F.clear) (hk : 0 < k) :
    tableAt F m root idx k = none := by
  refine tableAt_none hk ?_
  rw [tableAt_succ rfl, h, F.next_clear]

/-- And translates nothing. -/
theorem lookup_of_clear {leaf : W → Option O} (h : ∀ i : Fin 512, m (slot root i) = F.clear)
    (hleaf : leaf F.clear = none) : lookup F leaf m root depth idx = none := by
  cases depth with
  | zero =>
    rw [lookup, tableAt, Option.bind_some, h, hleaf]
  | succ depth =>
    rw [lookup, tableAt_of_clear h (Nat.succ_pos depth)]
    rfl

theorem Tree.of_clear (h : ∀ i : Fin 512, m (slot root i) = F.clear) (hr : root % 4096 = 0) :
    Tree F m root depth := by
  have hzero : ∀ {idx k b}, tableAt F m root idx k = some b → k = 0 ∧ b = root := by
    intro idx k b hb
    cases k with
    | zero => exact ⟨rfl, (Option.some.inj hb).symm⟩
    | succ k => rw [tableAt_of_clear h (Nat.succ_pos k)] at hb; cases hb
  refine ⟨fun _ hb => ?_, fun _ _ hb hb' => ?_, fun _ hb i => ?_⟩
  · rw [(hzero hb).2]
    exact hr
  · obtain ⟨rfl, -⟩ := hzero hb
    obtain ⟨rfl, -⟩ := hzero hb'
    exact ⟨rfl, nofun⟩
  · rw [(hzero hb).2]
    exact .inl (h i)

/-! ## Linking a table -/

namespace Extends

/-- The tables of the extended tree: the new one, and the old ones. -/
theorem tableAt_eq (h : Extends F m m' root depth idx₀ k₀ b₀ c) (ht : Tree F m root depth)
    (hk : k ≤ depth) :
    tableAt F m' root idx k = (if k = k₀ + 1 ∧ AgreeTo (k₀ + 1) idx idx₀ then some c
      else tableAt F m root idx k) := by
  have hframe := tableAt_frame ht (Nat.le_of_lt h.level) h.table h.same idx
  by_cases hag : AgreeTo (k₀ + 1) idx idx₀
  · have hold : tableAt F m root idx (k₀ + 1) = none := by
      rw [tableAt_congr hag, tableAt_succ h.table, h.was_clear, F.next_clear]
    have hnew : tableAt F m' root idx (k₀ + 1) = some c := by
      have hb₀ : tableAt F m' root idx k₀ = some b₀ := by
        rw [hframe k₀ (Nat.le_of_lt h.level) fun hlt => Nat.lt_irrefl _ hlt.1,
          tableAt_congr (hag.mono (Nat.le_succ _)), h.table]
      rw [tableAt_succ hb₀, hag k₀ (Nat.lt_succ_self _), h.link]
    rcases Nat.lt_trichotomy k (k₀ + 1) with hlt | heq | hgt
    · rw [if_neg fun hc => by omega, hframe k hk fun hlt' => by omega]
    · rw [if_pos ⟨heq, hag⟩, heq, hnew]
    · have hnone : tableAt F m' root idx (k₀ + 2) = none := by
        rw [tableAt_succ hnew, h.cleared, F.next_clear]
      rw [if_neg fun hc => by omega, tableAt_none (by omega) hnone, tableAt_none (by omega) hold]
  · rw [if_neg fun hc => hag hc.2, hframe k hk fun hc => hag hc.2]

theorem tree (h : Extends F m m' root depth idx₀ k₀ b₀ c) (ht : Tree F m root depth) :
    Tree F m' root depth := by
  refine ⟨?_, ?_, ?_⟩
  · intro idx k b hk hb
    rw [h.tableAt_eq ht hk] at hb
    split at hb
    · rw [← Option.some.inj hb]
      exact h.aligned
    · exact ht.aligned hk hb
  · intro idx idx' k k' b hk hk' hb hb'
    rw [h.tableAt_eq ht hk] at hb
    rw [h.tableAt_eq ht hk'] at hb'
    split at hb <;> split at hb'
    · next hc hc' =>
      obtain ⟨rfl, hag⟩ := hc
      obtain ⟨rfl, hag'⟩ := hc'
      exact ⟨rfl, hag.trans hag'.symm⟩
    · rw [← Option.some.inj hb] at hb'
      exact absurd hb' (h.fresh hk')
    · rw [← Option.some.inj hb'] at hb
      exact absurd hb (h.fresh hk)
    · exact ht.inj hk hk' hb hb'
  · intro idx k b hk hb i
    rw [h.tableAt_eq ht (Nat.le_of_lt hk)] at hb
    split at hb
    · rw [← Option.some.inj hb]
      exact .inl (h.cleared i)
    · by_cases hc : b = b₀ ∧ i = idx₀ k₀
      · obtain ⟨rfl, rfl⟩ := hc
        exact .inr (by rw [h.link]; rfl)
      · rw [h.same (Nat.le_of_lt hk) hb i (by
          rcases Classical.em (b = b₀) with rfl | hne
          · exact .inr fun hi => hc ⟨rfl, hi⟩
          · exact .inl hne)]
        exact ht.entry hk hb i

/-- Linking a cleared table changes no translation. -/
theorem lookup_eq {leaf : W → Option O} (hleaf : leaf F.clear = none)
    (h : Extends F m m' root depth idx₀ k₀ b₀ c) (ht : Tree F m root depth) :
    lookup F leaf m' root depth idx = lookup F leaf m root depth idx := by
  simp only [lookup, h.tableAt_eq ht (Nat.le_refl depth)]
  split
  · next hc =>
    have hold : tableAt F m root idx (k₀ + 1) = none := by
      rw [tableAt_congr hc.2, tableAt_succ h.table, h.was_clear, F.next_clear]
    rw [hc.1, hold]
    simp [h.cleared, hleaf]
  · cases hb : tableAt F m root idx depth with
    | none => rfl
    | some b =>
      have hne : b ≠ b₀ := by
        rintro rfl
        have hd := (ht.inj (Nat.le_refl _) (Nat.le_of_lt h.level) hb h.table).1
        have := h.level
        omega
      simp only [Option.bind_some, h.same (Nat.le_refl _) hb _ (.inl hne)]

end Extends

/-! ## Rewriting a last-level entry -/

namespace Stores

theorem tableAt_eq (h : Stores F m m' root depth idx₀ b₀) (ht : Tree F m root depth)
    (hk : k ≤ depth) : tableAt F m' root idx k = tableAt F m root idx k :=
  tableAt_frame ht (Nat.le_refl _) h.table h.same idx k hk fun hc => by omega

theorem tree (h : Stores F m m' root depth idx₀ b₀) (ht : Tree F m root depth) :
    Tree F m' root depth := by
  refine ⟨?_, ?_, ?_⟩
  · intro idx k b hk hb
    exact ht.aligned hk (h.tableAt_eq ht hk ▸ hb)
  · intro idx idx' k k' b hk hk' hb hb'
    exact ht.inj hk hk' (h.tableAt_eq ht hk ▸ hb) (h.tableAt_eq ht hk' ▸ hb')
  · intro idx k b hk hb i
    rw [h.tableAt_eq ht (Nat.le_of_lt hk)] at hb
    -- the rewritten entry is in a last-level table, and no table has two levels
    have hne : b ≠ b₀ := by
      rintro rfl
      have := (ht.inj (Nat.le_of_lt hk) (Nat.le_refl _) hb h.table).1
      omega
    rw [h.same (Nat.le_of_lt hk) hb i (.inl hne)]
    exact ht.entry hk hb i

/-- Only the walk of `idx₀` sees the new entry. -/
theorem lookup_eq {leaf : W → Option O} (h : Stores F m m' root depth idx₀ b₀)
    (ht : Tree F m root depth) :
    lookup F leaf m' root depth idx =
      if AgreeTo (depth + 1) idx idx₀ then leaf (m' (slot b₀ (idx₀ depth)))
      else lookup F leaf m root depth idx := by
  simp only [lookup, h.tableAt_eq ht (Nat.le_refl depth)]
  split
  · next hag =>
    rw [tableAt_congr (hag.mono (Nat.le_succ _)), h.table, hag depth (Nat.lt_succ_self _)]
    rfl
  · next hag =>
    cases hb : tableAt F m root idx depth with
    | none => rfl
    | some b =>
      simp only [Option.bind_some]
      rw [h.same (Nat.le_refl _) hb _ ?_]
      refine Classical.byContradiction fun hboth => hag ?_
      have hbb : b = b₀ := Classical.byContradiction fun hc => hboth (.inl hc)
      have hii : idx depth = idx₀ depth := Classical.byContradiction fun hc => hboth (.inr hc)
      subst hbb
      exact (ht.inj (Nat.le_refl _) (Nat.le_refl _) hb h.table).2.succ hii

end Stores

/-! ## Cutting a link -/

namespace Cuts

theorem tableAt_eq (h : Cuts F m m' root depth idx₀ k₀ b₀) (ht : Tree F m root depth)
    (hk : k ≤ depth) :
    tableAt F m' root idx k =
      if k₀ < k ∧ AgreeTo (k₀ + 1) idx idx₀ then none else tableAt F m root idx k := by
  have hframe := tableAt_frame ht (Nat.le_of_lt h.level) h.table h.same idx
  split
  · next hc =>
    have hb₀ : tableAt F m' root idx k₀ = some b₀ := by
      rw [hframe k₀ (Nat.le_of_lt h.level) fun hlt => Nat.lt_irrefl _ hlt.1,
        tableAt_congr (hc.2.mono (Nat.le_succ _)), h.table]
    refine tableAt_none (Nat.succ_le_of_lt hc.1) ?_
    rw [tableAt_succ hb₀, hc.2 k₀ (Nat.lt_succ_self _), h.cleared, F.next_clear]
  · next hc => exact hframe k hk hc

theorem tree (h : Cuts F m m' root depth idx₀ k₀ b₀) (ht : Tree F m root depth) :
    Tree F m' root depth := by
  have hold : ∀ {idx k b}, k ≤ depth → tableAt F m' root idx k = some b →
      tableAt F m root idx k = some b := by
    intro idx k b hk hb
    rw [h.tableAt_eq ht hk] at hb
    split at hb
    · cases hb
    · exact hb
  refine ⟨fun hk hb => ht.aligned hk (hold hk hb),
    fun hk hk' hb hb' => ht.inj hk hk' (hold hk hb) (hold hk' hb'), ?_⟩
  intro idx k b hk hb i
  have hb' := hold (Nat.le_of_lt hk) hb
  by_cases hc : b = b₀ ∧ i = idx₀ k₀
  · obtain ⟨rfl, rfl⟩ := hc
    exact .inl h.cleared
  · rw [h.same (Nat.le_of_lt hk) hb' i (by
      rcases Classical.em (b = b₀) with rfl | hne
      · exact .inr fun hi => hc ⟨rfl, hi⟩
      · exact .inl hne)]
    exact ht.entry hk hb' i

/-- Cutting off a table whose entries neither link nor translate changes no
translation. -/
theorem lookup_eq {leaf : W → Option O} (h : Cuts F m m' root depth idx₀ k₀ b₀)
    (ht : Tree F m root depth) (hc : F.next (m (slot b₀ (idx₀ k₀))) = some c)
    (hnext : ∀ i : Fin 512, F.next (m (slot c i)) = none)
    (hleaf : ∀ i : Fin 512, leaf (m (slot c i)) = none) :
    lookup F leaf m' root depth idx = lookup F leaf m root depth idx := by
  simp only [lookup, h.tableAt_eq ht (Nat.le_refl depth)]
  split
  · next hag =>
    have hchild : tableAt F m root idx (k₀ + 1) = some c := by
      rw [tableAt_congr hag.2, tableAt_succ h.table, hc]
    rcases Nat.lt_or_ge (k₀ + 1) depth with hlt | hge
    · have hnone : tableAt F m root idx (k₀ + 2) = none := by
        rw [tableAt_succ hchild, hnext]
      rw [tableAt_none (by omega) hnone]
      rfl
    · have hd : k₀ + 1 = depth := Nat.le_antisymm (Nat.succ_le_of_lt h.level) hge
      rw [hd] at hchild
      simp [hchild, hleaf]
  · cases hb : tableAt F m root idx depth with
    | none => rfl
    | some b =>
      have hne : b ≠ b₀ := by
        rintro rfl
        have hd := (ht.inj (Nat.le_refl _) (Nat.le_of_lt h.level) hb h.table).1
        have := h.level
        omega
      simp only [Option.bind_some, h.same (Nat.le_refl _) hb _ (.inl hne)]

end Cuts

end

/-! ## Addresses -/

/-- The 9-bit index that `addr` has at `level` of a four-level table. -/
def pageIndex (addr level : Nat) : Fin 512 := Fin.ofNat 512 (addr / 2 ^ (12 + 9 * (3 - level)))

/-- Two addresses inside the input range that meet in every index are in one page. -/
theorem page_eq_of_agree {startLevel a b : Nat} (hs : startLevel ≤ 3)
    (ha : a < 2 ^ (12 + 9 * (4 - startLevel))) (hb : b < 2 ^ (12 + 9 * (4 - startLevel)))
    (h : AgreeTo (3 - startLevel + 1) (fun k => pageIndex a (startLevel + k))
      fun k => pageIndex b (startLevel + k)) : a / 4096 = b / 4096 := by
  have hidx : ∀ k, k ≤ 3 - startLevel → a / 2 ^ (12 + 9 * (3 - (startLevel + k))) % 512 =
      b / 2 ^ (12 + 9 * (3 - (startLevel + k))) % 512 :=
    fun k hk => congrArg Fin.val (h k (Nat.lt_succ_of_le hk))
  match startLevel, hs with
  | 0, _ =>
    have h0 := hidx 0 (by omega)
    have h1 := hidx 1 (by omega)
    have h2 := hidx 2 (by omega)
    have h3 := hidx 3 (by omega)
    simp only [Nat.reduceAdd, Nat.reduceMul, Nat.reduceSub, Nat.reducePow] at *
    omega
  | 1, _ =>
    have h0 := hidx 0 (by omega)
    have h1 := hidx 1 (by omega)
    have h2 := hidx 2 (by omega)
    simp only [Nat.reduceAdd, Nat.reduceMul, Nat.reduceSub, Nat.reducePow] at *
    omega
  | 2, _ =>
    have h0 := hidx 0 (by omega)
    have h1 := hidx 1 (by omega)
    simp only [Nat.reduceAdd, Nat.reduceMul, Nat.reduceSub, Nat.reducePow] at *
    omega
  | 3, _ =>
    have h0 := hidx 0 (by omega)
    simp only [Nat.reduceAdd, Nat.reduceMul, Nat.reduceSub, Nat.reducePow] at *
    omega

/-- Addresses of one page have the same indices. -/
theorem agree_of_page {startLevel a b : Nat} (h : a / 4096 = b / 4096) (n : Nat) :
    AgreeTo n (fun k => pageIndex a (startLevel + k)) fun k => pageIndex b (startLevel + k) := by
  intro k _
  have hdiv (x : Nat) : x / 2 ^ (12 + 9 * (3 - (startLevel + k))) =
      x / 4096 / 2 ^ (9 * (3 - (startLevel + k))) := by
    rw [Nat.pow_add, Nat.div_div_eq_div_mul]
  simp only [pageIndex, hdiv, h]

/-- The indices see an address up to the reach of the root table. -/
theorem agree_mod {startLevel : Nat} (hs : startLevel ≤ 3) (a : Nat) :
    AgreeTo (3 - startLevel + 1)
      (fun k => pageIndex (a % 2 ^ (12 + 9 * (4 - startLevel))) (startLevel + k))
      fun k => pageIndex a (startLevel + k) := by
  intro k hk
  refine Fin.ext ?_
  have hpow : 12 + 9 * (4 - startLevel) = 12 + 9 * (3 - (startLevel + k)) + (9 + 9 * k) := by
    omega
  have hdvd : 512 ∣ 2 ^ (9 + 9 * k) := ⟨2 ^ (9 * k), by rw [Nat.pow_add]⟩
  simp only [pageIndex, Fin.ofNat]
  rw [hpow, Nat.pow_add, Nat.mod_mul_right_div_self, Nat.mod_mod_of_dvd _ hdvd]

/-- Two addresses meet in every index exactly if they are in one page below that reach. -/
theorem agree_iff_page {startLevel : Nat} (hs : startLevel ≤ 3) (a b : Nat) :
    AgreeTo (3 - startLevel + 1) (fun k => pageIndex a (startLevel + k))
        (fun k => pageIndex b (startLevel + k)) ↔
      a % 2 ^ (12 + 9 * (4 - startLevel)) / 4096 = b % 2 ^ (12 + 9 * (4 - startLevel)) / 4096 := by
  constructor
  · intro hag
    exact page_eq_of_agree hs (Nat.mod_lt _ (Nat.two_pow_pos _)) (Nat.mod_lt _ (Nat.two_pow_pos _))
      (((agree_mod hs a).trans hag).trans (agree_mod hs b).symm)
  · intro hpage
    exact ((agree_mod hs a).symm.trans (agree_of_page hpage _)).trans (agree_mod hs b)

end RadixTable
