import HyperCore.Lib.RadixTable

/-!
# Trees without idle tables

A tree is trim if every table below the root is on the walk of an address that translates. Which
tables a trim tree has is then determined by its translations: two trim trees that translate the
same addresses have tables on the same paths.
-/

namespace RadixTable

variable {W O : Type} {F : Format W} {leaf : W → Option O} {m m' : Nat → W}
variable {root root' depth k : Nat} {idx : Nat → Fin 512}

/-- Every table below the root is on the path of an address that translates. -/
def Trim (F : Format W) (leaf : W → Option O) (m : Nat → W) (root depth : Nat) : Prop :=
  ∀ idx k, 0 < k → k ≤ depth → (tableAt F m root idx k).isSome →
    ∃ idx', AgreeTo k idx' idx ∧ (lookup F leaf m root depth idx').isSome

/-- The path of an address that translates is complete. -/
theorem tableAt_isSome_of_lookup (h : (lookup F leaf m root depth idx).isSome) (hk : k ≤ depth) :
    (tableAt F m root idx k).isSome := by
  obtain ⟨o, ho⟩ := Option.isSome_iff_exists.mp h
  obtain ⟨b, hb, -⟩ := Option.bind_eq_some_iff.mp ho
  exact tableAt_isSome_of_le hk (Option.isSome_of_eq_some hb)

/-- A cleared root has no table below it. -/
theorem Trim.of_clear (h : ∀ i : Fin 512, m (slot root i) = F.clear) :
    Trim F leaf m root depth := by
  intro idx k h0 _ hb
  rw [tableAt_of_clear h h0] at hb
  cases hb

theorem Trim.sameOn (ht : Trim F leaf m root depth) (hs : SameOn F m m' root depth) :
    Trim F leaf m' root depth := by
  intro idx k h0 hk hb
  rw [hs.tableAt_eq hk] at hb
  obtain ⟨idx', hag, hl⟩ := ht idx k h0 hk hb
  exact ⟨idx', hag, by rw [hs.lookup_eq]; exact hl⟩

/-- The tables of a trim tree are those on the paths of its translations. -/
theorem Trim.tableAt_iff (ht : Trim F leaf m root depth) (h0 : 0 < k) (hk : k ≤ depth) :
    (tableAt F m root idx k).isSome ↔
      ∃ idx', AgreeTo k idx' idx ∧ (lookup F leaf m root depth idx').isSome := by
  refine ⟨ht idx k h0 hk, ?_⟩
  rintro ⟨idx', hag, hl⟩
  rw [← tableAt_congr hag]
  exact tableAt_isSome_of_lookup hl hk

/-- Trim trees that translate the same addresses have tables on the same paths. -/
theorem Trim.same_paths (ht : Trim F leaf m root depth) (ht' : Trim F leaf m' root' depth)
    (hw : ∀ idx, (lookup F leaf m' root' depth idx).isSome ↔
      (lookup F leaf m root depth idx).isSome) (hk : k ≤ depth) :
    (tableAt F m' root' idx k).isSome ↔ (tableAt F m root idx k).isSome := by
  cases k with
  | zero => exact ⟨fun _ => rfl, fun _ => rfl⟩
  | succ k =>
    rw [ht'.tableAt_iff (Nat.succ_pos k) hk, ht.tableAt_iff (Nat.succ_pos k) hk]
    exact exists_congr fun idx' => and_congr_right fun _ => hw idx'

end RadixTable
