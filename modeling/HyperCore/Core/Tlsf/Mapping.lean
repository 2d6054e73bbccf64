import HyperCore.Core.Tlsf.Heap

/-!
# The size classes of `tlsf.c`

Free blocks are filed by size in a table of `flIndexCount` rows of `slIndexCount` lists.
Read row by row, list `k` takes the sizes from `classMin k` up to `classMin (k + 1)`: `rank` is
the place of a pair of indices in this order.

`mapping_insert` and `classMin` are the two halves of a Galois connection
(`le_rank_mappingInsert`), and so are `classMin` and `mapping_search`, on sizes that are
multiples of `ALIGN_SIZE` (`rank_mappingSearch_le`): a search starts at the first list of which
every block is large enough.
-/

namespace HyperCore.Tlsf

open ByteMem MachineInt

/-! ## Bits -/

theorem tlsfFls_eq {word : Nat} (h0 : word ≠ 0) (hlt : word < 2 ^ 32) :
    tlsfFls word = Nat.log2 word := by
  have hlog : Nat.log2 word < 32 := (Nat.log2_lt h0).mpr hlt
  simp only [tlsfFls, builtinClz, ne_eq, h0, not_false_eq_true, if_true]
  omega

theorem tlsfFlsSizet_eq {size : Nat} (h0 : size ≠ 0) (hlt : size < 2 ^ 64) :
    tlsfFlsSizet size = Nat.log2 size := by
  have hshift : size >>> 32 = size / 2 ^ 32 := Nat.shiftRight_eq_div_pow size 32
  simp only [tlsfFlsSizet, hshift]
  split
  next hhigh =>
    have hhlt : size / 2 ^ 32 < 2 ^ 32 := by omega
    rw [tlsfFls_eq hhigh hhlt]
    have hlog : Nat.log2 (size / 2 ^ 32) = Nat.log2 size - 32 := by
      rw [Nat.log2_eq_log_two, Nat.log2_eq_log_two, Nat.log_div_base_pow]
    have hge : 32 ≤ Nat.log2 size := (Nat.le_log2 h0).mpr (by omega)
    omega
  next hhigh =>
    have hsmall : size < 2 ^ 32 := by
      have : size / 2 ^ 32 = 0 := not_not.mp hhigh
      omega
    rw [Nat.mod_eq_of_lt hsmall, tlsfFls_eq h0 hsmall]

/-- The lowest set bit. -/
theorem tlsfFfs_spec {word : BitVec 32} (h : word ≠ 0) :
    ∃ i : Nat, i < 32 ∧ tlsfFfs word = (i : Int) ∧ word.getLsbD i = true ∧
      ∀ j, j < i → word.getLsbD j = false := by
  obtain ⟨j, hj, hset⟩ := Segregated.ne_zero_iff.mp h
  cases hf : (List.range 32).find? word.getLsbD with
  | none =>
    have hno := List.find?_eq_none.mp hf j (List.mem_range.mpr hj)
    exact absurd hset hno
  | some i =>
    obtain ⟨hi, hir, hbefore⟩ := List.find?_range_eq_some.mp hf
    refine ⟨i, List.mem_range.mp hir, ?_, hi, fun k hk => ?_⟩
    · simp only [tlsfFfs, hf]
    · exact Bool.eq_false_iff.mpr fun hk' => by simpa [hk'] using hbefore k hk

theorem getLsbD_onesFrom {n i : Nat} (hi : i < 32) :
    (onesFrom n).getLsbD i = decide (n ≤ i) := by
  rw [onesFrom, BitVec.getLsbD_shiftLeft, BitVec.getLsbD_allOnes]
  by_cases hn : n ≤ i
  · simp [hi, hn]
    omega
  · simp [hn]

/-! ## Classes -/

def rank (p : Nat × Nat) : Nat := slIndexCount * p.1 + p.2

/-- The least size filed in list `k`. -/
def classMin (k : Nat) : Nat :=
  if k < 32 then 8 * k else (32 + k % 32) * 2 ^ (k / 32 + 2)

/-- The sizes of a list of row `i`. -/
def classWidth (i : Nat) : Nat := 2 ^ (max i 1 + 2)

theorem classMin_row {i j : Nat} (hi : 0 < i) (hj : j < 32) :
    classMin (32 * i + j) = (32 + j) * 2 ^ (i + 2) := by
  rw [classMin, if_neg (by omega), show (32 * i + j) % 32 = j by omega,
    show (32 * i + j) / 32 = i by omega]

theorem classMin_succ (k : Nat) : classMin (k + 1) = classMin k + classWidth (k / 32) := by
  rcases Nat.lt_or_ge k 32 with hk | hk
  · rw [classWidth, show k / 32 = 0 by omega]
    rcases Nat.lt_or_ge k 31 with hk' | hk'
    · rw [classMin, if_pos (by omega), classMin, if_pos hk]
      simp only [Nat.zero_max]
      omega
    · rw [show k = 31 by omega]
      decide
  · obtain ⟨i, j, hi, hj, rfl⟩ : ∃ i j, 0 < i ∧ j < 32 ∧ k = 32 * i + j :=
      ⟨k / 32, k % 32, by omega, by omega, by omega⟩
    rw [classMin_row hi hj, classWidth, show (32 * i + j) / 32 = i by omega, max_eq_left hi]
    rcases Nat.lt_or_ge j 31 with hj' | hj'
    · rw [Nat.add_assoc, classMin_row hi (by omega), ← Nat.add_assoc, Nat.add_mul, Nat.one_mul]
    · rw [show j = 31 by omega, show 32 * i + 31 + 1 = 32 * (i + 1) + 0 by omega,
        classMin_row (by omega) (by decide), show i + 1 + 2 = (i + 2) + 1 by omega, Nat.pow_succ]
      omega

theorem classWidth_pos (i : Nat) : 0 < classWidth i := Nat.two_pow_pos _

theorem classMin_strictMono : StrictMono classMin := by
  refine strictMono_nat_of_lt_succ fun k => ?_
  rw [classMin_succ]
  exact Nat.lt_add_of_pos_right (classWidth_pos _)

theorem classMin_le {k k' : Nat} (h : k ≤ k') : classMin k ≤ classMin k' :=
  classMin_strictMono.monotone h

theorem classMin_start (i : Nat) : classMin (32 * (i + 1)) = 2 ^ (i + 8) := by
  rw [← Nat.add_zero (32 * (i + 1)), classMin_row (by omega) (by decide),
    show i + 8 = i + 1 + 2 + 5 by omega, Nat.pow_add _ _ 5, Nat.mul_comm]

/-! ## `mapping_insert` -/

theorem xor_32 {q : Nat} (h1 : 32 ≤ q) (h2 : q < 64) : q ^^^ 32 = q - 32 := by
  have hall : ∀ q : Fin 64, 32 ≤ q.1 → q.1 ^^^ 32 = q.1 - 32 := by decide
  exact hall ⟨q, h2⟩ h1

theorem mappingInsert_small {n : Nat} (h : n < 256) : mappingInsert n = (0, n / 8) := by
  rw [mappingInsert, if_pos (show n < smallBlockSize from h)]
  rfl

/-- The five bits below the highest one. -/
theorem shift_bounds {n : Nat} (h : 256 ≤ n) :
    32 ≤ n / 2 ^ (Nat.log2 n - 5) ∧ n / 2 ^ (Nat.log2 n - 5) < 64 := by
  have h0 : n ≠ 0 := by omega
  have h8 : 8 ≤ Nat.log2 n := (Nat.le_log2 h0).mpr (by omega)
  have hlo : 2 ^ Nat.log2 n ≤ n := Nat.log2_self_le h0
  have hhi : n < 2 ^ (Nat.log2 n + 1) := Nat.lt_log2_self
  rw [Nat.le_div_iff_mul_le (Nat.two_pow_pos _), Nat.div_lt_iff_lt_mul (Nat.two_pow_pos _)]
  rw [show (32 : Nat) = 2 ^ 5 from rfl, show (64 : Nat) = 2 ^ 6 from rfl, ← Nat.pow_add,
    ← Nat.pow_add, show 5 + (Nat.log2 n - 5) = Nat.log2 n by omega,
    show 6 + (Nat.log2 n - 5) = Nat.log2 n + 1 by omega]
  exact ⟨hlo, hhi⟩

theorem mappingInsert_large {n : Nat} (h : 256 ≤ n) (hlt : n < 2 ^ 64) :
    mappingInsert n = (Nat.log2 n - 7, n / 2 ^ (Nat.log2 n - 5) - 32) := by
  obtain ⟨h1, h2⟩ := shift_bounds h
  rw [mappingInsert, if_neg (show ¬ n < smallBlockSize from Nat.not_lt.mpr h),
    tlsfFlsSizet_eq (by omega) hlt]
  simp only [Int.toNat_natCast, slIndexCountLog2, flIndexShift, alignSizeLog2,
    Nat.shiftRight_eq_div_pow]
  rw [show (1 : Nat) <<< 5 = 32 from rfl, xor_32 h1 h2]

theorem mappingInsert_snd_lt {n : Nat} (hlt : n < 2 ^ 64) : (mappingInsert n).2 < 32 := by
  rcases Nat.lt_or_ge n 256 with h | h
  · rw [mappingInsert_small h]
    simp only
    omega
  · rw [mappingInsert_large h hlt]
    have := (shift_bounds h).2
    simp only
    omega

theorem le_rank_mappingInsert {n : Nat} (hlt : n < 2 ^ 64) (k : Nat) :
    k ≤ rank (mappingInsert n) ↔ classMin k ≤ n := by
  rcases Nat.lt_or_ge n 256 with h | h
  · rw [mappingInsert_small h, rank]
    simp only [Nat.mul_zero, Nat.zero_add]
    rcases Nat.lt_or_ge k 32 with hk | hk
    · rw [classMin, if_pos hk]
      omega
    · have h256 : classMin 32 ≤ classMin k := classMin_le hk
      have h32 : classMin 32 = 256 := rfl
      omega
  · have h0 : n ≠ 0 := by omega
    have h8 : 8 ≤ Nat.log2 n := (Nat.le_log2 h0).mpr (by omega)
    obtain ⟨f, hf⟩ : ∃ f, Nat.log2 n = f + 8 := ⟨Nat.log2 n - 8, by omega⟩
    obtain ⟨h1, h2⟩ := shift_bounds h
    have hlo : 2 ^ (f + 8) ≤ n := hf ▸ Nat.log2_self_le h0
    have hhi : n < 2 ^ (f + 9) := by
      rw [show f + 9 = Nat.log2 n + 1 by omega]
      exact Nat.lt_log2_self
    rw [mappingInsert_large h hlt, rank]
    rw [hf] at h1 h2 ⊢
    simp only [slIndexCount, slIndexCountLog2, show (1 : Nat) <<< 5 = 32 from rfl,
      show f + 8 - 7 = f + 1 by omega, show f + 8 - 5 = f + 3 by omega] at h1 h2 ⊢
    rcases Nat.lt_or_ge k (32 * (f + 1)) with hk | hk
    · -- a list of an earlier row
      have hmin := classMin_le (Nat.le_of_lt hk)
      rw [classMin_start] at hmin
      omega
    · rcases Nat.lt_or_ge k (32 * (f + 2)) with hk' | hk'
      · -- a list of the same row
        obtain ⟨j, hj, rfl⟩ : ∃ j, j < 32 ∧ k = 32 * (f + 1) + j :=
          ⟨k - 32 * (f + 1), by omega, by omega⟩
        rw [classMin_row (by omega) hj, show f + 1 + 2 = f + 3 by omega,
          ← Nat.le_div_iff_mul_le (Nat.two_pow_pos _)]
        omega
      · -- a list of a later row
        have hmin := classMin_le hk'
        rw [classMin_start] at hmin
        rw [show f + 1 + 8 = f + 9 by omega] at hmin
        omega

theorem mappingInsert_lt {n k : Nat} (hlt : n < 2 ^ 64) :
    rank (mappingInsert n) < k ↔ n < classMin k := by
  rw [← Nat.not_le, ← Nat.not_le, not_iff_not]
  exact le_rank_mappingInsert hlt k

/-- The sizes that are filed inside the table. -/
theorem mappingInsert_fst_lt {n : Nat} (hlt : n < 2 ^ 64) :
    (mappingInsert n).1 < flIndexCount ↔ n < blockSizeMax := by
  have hsnd := mappingInsert_snd_lt hlt
  have hrank : (mappingInsert n).1 < flIndexCount ↔ rank (mappingInsert n) < 32 * 25 := by
    simp only [rank, slIndexCount, slIndexCountLog2, show (1 : Nat) <<< 5 = 32 from rfl,
      show flIndexCount = 25 from rfl]
    omega
  rw [hrank, mappingInsert_lt hlt, show (32 * 25) = 32 * (24 + 1) from rfl, classMin_start]
  rfl

/-! ## `mapping_search` -/

theorem rank_mappingSearch_le {size : Nat} (hdvd : 8 ∣ size) (hlt : size ≤ 2 ^ 32) (k : Nat) :
    rank (mappingSearch size) ≤ k ↔ size ≤ classMin k := by
  rw [← Nat.lt_add_one_iff]
  rcases Nat.lt_or_ge size 256 with h | h
  · have hsearch : mappingSearch size = mappingInsert size := by
      rw [mappingSearch, if_neg (show ¬ size ≥ smallBlockSize from Nat.not_le.mpr h)]
    rw [hsearch, mappingInsert_lt (by omega), classMin_succ]
    rcases Nat.lt_or_ge k 32 with hk | hk
    · rw [classWidth, show k / 32 = 0 by omega, classMin, if_pos hk]
      simp only [Nat.zero_max]
      omega
    · have h256 : classMin 32 ≤ classMin k := classMin_le hk
      have h32 : classMin 32 = 256 := rfl
      omega
  · have h0 : size ≠ 0 := by omega
    have h8 : 8 ≤ Nat.log2 size := (Nat.le_log2 h0).mpr (by omega)
    obtain ⟨f, hf⟩ : ∃ f, Nat.log2 size = f + 8 := ⟨Nat.log2 size - 8, by omega⟩
    have hlo : 2 ^ (f + 8) ≤ size := hf ▸ Nat.log2_self_le h0
    have hhi : size < 2 ^ (f + 9) := by
      rw [show f + 9 = Nat.log2 size + 1 by omega]
      exact Nat.lt_log2_self
    have hround : 2 ^ (f + 3) ≤ size :=
      Nat.le_trans (Nat.pow_le_pow_right (by decide) (by omega)) hlo
    have hone : 1 <<< (f + 3) = 2 ^ (f + 3) := Nat.one_shiftLeft (f + 3)
    have hpos : 0 < 2 ^ (f + 3) := Nat.two_pow_pos _
    have hwidth : 2 ^ (f + 3) ≤ 2 ^ 32 :=
      Nat.le_trans hround hlt
    have hsearch : mappingSearch size = mappingInsert (size + (2 ^ (f + 3) - 1)) := by
      rw [mappingSearch, if_pos (show size ≥ smallBlockSize from h),
        tlsfFlsSizet_eq h0 (by omega), hf, Int.toNat_natCast, slIndexCountLog2,
        show f + 8 - 5 = f + 3 by omega, hone]
    rw [hsearch, mappingInsert_lt (by omega)]
    rcases Nat.lt_or_ge k (32 * (f + 1)) with hk | hk
    · have hmin : classMin (k + 1) ≤ _ := classMin_le (Nat.succ_le_of_lt hk)
      have hlt' := classMin_strictMono hk
      rw [classMin_start] at hmin hlt'
      omega
    · rcases Nat.lt_or_ge k (32 * (f + 2)) with hk' | hk'
      · rw [classMin_succ, classWidth, show k / 32 = f + 1 by omega, max_eq_left (by omega),
          show f + 1 + 2 = f + 3 by omega]
        omega
      · have hmin := classMin_le hk'
        have hdouble : 2 ^ (f + 3 + 1) ≤ classWidth (k / 32) := by
          rw [classWidth]
          exact Nat.pow_le_pow_right (by decide) (by omega)
        rw [classMin_start, show f + 1 + 8 = f + 9 by omega] at hmin
        rw [classMin_succ]
        rw [Nat.pow_succ] at hdouble
        omega

/-- Whatever a search can come upon is large enough. -/
theorem fits_of_rank_le {size n : Nat} (hdvd : 8 ∣ size) (hsize : size ≤ 2 ^ 32)
    (hn : n < 2 ^ 64) (h : rank (mappingSearch size) ≤ rank (mappingInsert n)) : size ≤ n :=
  Nat.le_trans ((rank_mappingSearch_le hdvd hsize _).mp h)
    ((le_rank_mappingInsert hn _).mp (Nat.le_refl _))

/-- Two sizes of one place in the table are in one list. -/
theorem mappingInsert_eq_of_rank {n k : Nat} (hn : n < 2 ^ 64) (hk : k < 2 ^ 64)
    (h : rank (mappingInsert n) = rank (mappingInsert k)) : mappingInsert n = mappingInsert k := by
  have h1 := mappingInsert_snd_lt hn
  have h2 := mappingInsert_snd_lt hk
  simp only [rank, slIndexCount, slIndexCountLog2, show (1 : Nat) <<< 5 = 32 from rfl] at h
  refine Prod.ext ?_ ?_
  · omega
  · omega

/-- The smallest size of a list. -/
theorem mappingInsert_classMin {n : Nat} (hn : n < 2 ^ 64) :
    mappingInsert (classMin (rank (mappingInsert n))) = mappingInsert n := by
  have hle : classMin (rank (mappingInsert n)) ≤ n := (le_rank_mappingInsert hn _).mp (Nat.le_refl _)
  have hlt : classMin (rank (mappingInsert n)) < 2 ^ 64 := Nat.lt_of_le_of_lt hle hn
  refine mappingInsert_eq_of_rank hlt hn (Nat.le_antisymm ?_ ?_)
  · rw [← Nat.lt_add_one_iff, mappingInsert_lt hlt]
    exact classMin_strictMono (Nat.lt_add_one _)
  · exact (le_rank_mappingInsert hlt _).mpr (Nat.le_refl _)

/-- A list lies behind the start of a search exactly when all its sizes fit. -/
theorem search_le_iff {size n : Nat} (hdvd : 8 ∣ size) (hsize : size ≤ 2 ^ 32) (hn : n < 2 ^ 64) :
    rank (mappingSearch size) ≤ rank (mappingInsert n) ↔
      ∀ k, k < 2 ^ 64 → mappingInsert k = mappingInsert n → size ≤ k := by
  constructor
  · intro hle k hk heq
    exact fits_of_rank_le hdvd hsize hk (heq ▸ hle)
  · intro hall
    refine (rank_mappingSearch_le hdvd hsize _).mpr (hall _ ?_ (mappingInsert_classMin hn))
    exact Nat.lt_of_le_of_lt ((le_rank_mappingInsert hn _).mp (Nat.le_refl _)) hn

/-- The search starts at the first list from which on every block is large enough. -/
theorem mappingSearch_least {size : Nat} (hdvd : 8 ∣ size) (hsize : size ≤ 2 ^ 32) :
    (∀ n, n < 2 ^ 64 → rank (mappingSearch size) ≤ rank (mappingInsert n) → size ≤ n) ∧
    ∀ k, (∀ n, n < 2 ^ 64 → k ≤ rank (mappingInsert n) → size ≤ n) →
      rank (mappingSearch size) ≤ k := by
  refine ⟨fun n hn => fits_of_rank_le hdvd hsize hn, fun k hall => ?_⟩
  refine (rank_mappingSearch_le hdvd hsize k).mpr ?_
  by_cases hk : classMin k < 2 ^ 64
  · exact hall _ hk ((le_rank_mappingInsert hk k).mpr (Nat.le_refl _))
  · omega

theorem mappingSearch_least_thousand :
    mappingSearch 1000 = (2, 31) ∧
    (∀ n, n < 2 ^ 64 → rank (mappingSearch 1000) ≤ rank (mappingInsert n) → 1000 ≤ n) ∧
    ∀ k, (∀ n, n < 2 ^ 64 → k ≤ rank (mappingInsert n) → 1000 ≤ n) →
      rank (mappingSearch 1000) ≤ k :=
  ⟨rfl, mappingSearch_least (show 8 ∣ 1000 by decide) (by decide)⟩

end HyperCore.Tlsf
