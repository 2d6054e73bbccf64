import Mathlib

/-!
# Segregated free lists

What an allocator with a table of free lists is made of, over arbitrary nodes.

* `Chain next prev null p h l`: the nodes of `l` hang off `h` in this order, each pointing back
  to the one before it and the first one to `p`. The dummy node `null` ends the list; nothing is
  asked of its own pointers, which an insertion or a removal at an end may overwrite.
* `Occupancy`: a two-level bitmap. Bit `j` of row `i` says that list `(i, j)` is not empty, bit
  `i` of the first level that row `i` has a bit set.
-/

namespace Segregated

/-! ## Lists that end in a dummy node -/

section

variable {α : Type} {next prev next' prev' : α → α} {null p h b x : α} {l l₁ l₂ : List α}

def Chain (next prev : α → α) (null : α) : α → α → List α → Prop
  | _, h, [] => h = null
  | p, h, x :: l => h = x ∧ x ≠ null ∧ prev x = p ∧ Chain next prev null x (next x) l

theorem Chain.ne_null (hc : Chain next prev null p h l) (hx : x ∈ l) : x ≠ null := by
  induction l generalizing p h with
  | nil => cases hx
  | cons y l ih =>
    rcases List.mem_cons.mp hx with rfl | hx
    · exact hc.2.1
    · exact ih hc.2.2.2 hx

/-- The list is empty exactly when its head is the dummy node. -/
theorem Chain.head_null (hc : Chain next prev null p h l) : h = null ↔ l = [] := by
  cases l with
  | nil => exact iff_of_true hc rfl
  | cons x l => exact iff_of_false (fun he => hc.2.1 (hc.1.symm.trans he)) (List.cons_ne_nil _ _)

theorem Chain.head_mem (hc : Chain next prev null p h l) (hne : l ≠ []) : h ∈ l := by
  cases l with
  | nil => exact absurd rfl hne
  | cons x l => exact hc.1 ▸ List.mem_cons_self

/-- A list reads the pointers of its own nodes and no others. -/
theorem Chain.frame (hc : Chain next prev null p h l) (hn : ∀ x ∈ l, next' x = next x)
    (hp : ∀ x ∈ l, prev' x = prev x) : Chain next' prev' null p h l := by
  induction l generalizing p h with
  | nil => exact hc
  | cons x l ih =>
    obtain ⟨hh, hx, hpx, hrest⟩ := hc
    refine ⟨hh, hx, (hp x List.mem_cons_self).trans hpx, ?_⟩
    rw [hn x List.mem_cons_self]
    exact ih hrest (fun y hy => hn y (List.mem_cons_of_mem _ hy))
      (fun y hy => hp y (List.mem_cons_of_mem _ hy))

/-- The list led from another first predecessor: only its head looks back at `p`. -/
theorem Chain.lead {p' : α} (hc : Chain next prev null p h l) (hnd : l.Nodup)
    (hn : ∀ x ∈ l, next' x = next x) (hp : ∀ x ∈ l, x ≠ h → prev' x = prev x)
    (hh : h ≠ null → prev' h = p') : Chain next' prev' null p' h l := by
  cases l with
  | nil => exact hc
  | cons x l =>
    obtain ⟨rfl, hx, -, hrest⟩ := hc
    refine ⟨rfl, hx, hh hx, ?_⟩
    rw [hn h List.mem_cons_self]
    refine hrest.frame (fun y hy => hn y (List.mem_cons_of_mem _ hy))
      fun y hy => hp y (List.mem_cons_of_mem _ hy) ?_
    rintro rfl
    exact (List.nodup_cons.mp hnd).1 hy

/-- A new first node. -/
theorem Chain.insert (hc : Chain next prev null p h l) (hnd : l.Nodup) (hb : b ≠ null)
    (hbn : next' b = h) (hbp : prev' b = p) (hhp : h ≠ null → prev' h = b)
    (hn : ∀ x ∈ l, next' x = next x) (hp : ∀ x ∈ l, x ≠ h → prev' x = prev x) :
    Chain next' prev' null p b (b :: l) :=
  ⟨rfl, hb, hbp, hbn.symm ▸ hc.lead hnd hn hp hhp⟩

/-- What a node points to stands in the list, or is an end of it. -/
theorem Chain.neighbours (hc : Chain next prev null p h l) (hx : x ∈ l) :
    (next x ∈ l ∨ next x = null) ∧ (prev x ∈ l ∨ prev x = p) := by
  induction l generalizing p h with
  | nil => cases hx
  | cons y l ih =>
    obtain ⟨rfl, hy, hpy, hrest⟩ := hc
    rcases List.mem_cons.mp hx with rfl | hx
    · refine ⟨?_, Or.inr hpy⟩
      by_cases hl : l = []
      · exact Or.inr (hrest.head_null.mpr hl)
      · exact Or.inl (List.mem_cons_of_mem _ (hrest.head_mem hl))
    · obtain ⟨hnx, hpx⟩ := ih hrest hx
      refine ⟨hnx.imp_left (List.mem_cons_of_mem _), Or.inl ?_⟩
      rcases hpx with hpx | hpx
      · exact List.mem_cons_of_mem _ hpx
      · exact hpx ▸ List.mem_cons_self

/-- A node is the head exactly when it looks back at `p`, where `p` is not one of the nodes. -/
theorem Chain.prev_head (hc : Chain next prev null p h l) (hp : p ∉ l) (hnd : l.Nodup)
    (hx : x ∈ l) : prev x = p ↔ h = x := by
  cases l with
  | nil => cases hx
  | cons y l =>
    obtain ⟨rfl, hy, hpy, hrest⟩ := hc
    rcases List.mem_cons.mp hx with rfl | hx'
    · exact iff_of_true hpy rfl
    · refine iff_of_false (fun he => ?_) ?_
      · rcases (hrest.neighbours hx').2 with hm | hm
        · exact hp (List.mem_cons_of_mem _ (he ▸ hm))
        · exact hp (List.mem_cons.mpr (Or.inl (he.symm.trans hm)))
      · rintro rfl
        exact (List.nodup_cons.mp hnd).1 hx'

/-- A node taken out: its neighbours point to each other, and a list that it led is led by its
successor. -/
theorem Chain.remove [DecidableEq α] (hc : Chain next prev null p h (l₁ ++ x :: l₂))
    (hnd : (l₁ ++ x :: l₂).Nodup) (hpl : p ∉ l₁ ++ x :: l₂)
    (hn : ∀ y ∈ l₁ ++ l₂, next' y = if y = prev x then next x else next y)
    (hp : ∀ y ∈ l₁ ++ l₂, prev' y = if y = next x then prev x else prev y) :
    Chain next' prev' null p (if h = x then next x else h) (l₁ ++ l₂) := by
  induction l₁ generalizing p h with
  | nil =>
    obtain ⟨rfl, hx, hpx, hrest⟩ := hc
    rw [if_pos rfl]
    simp only [List.nil_append] at hn hp hnd hpl ⊢
    refine hrest.lead (List.nodup_cons.mp hnd).2 (fun y hy => ?_) (fun y hy hne => ?_) fun hne => ?_
    · rw [hn y hy, if_neg]
      rintro rfl
      exact hpl (hpx ▸ List.mem_cons_of_mem _ hy)
    · rw [hp y hy, if_neg hne]
    · have hmem : next h ∈ l₂ := hrest.head_mem fun hl => hne (hrest.head_null.mpr hl)
      rw [hp _ hmem, if_pos rfl, hpx]
  | cons y l₁ ih =>
    obtain ⟨rfl, hy, hpy, hrest⟩ := hc
    have hnd' := List.nodup_cons.mp hnd
    have hxl : x ∈ l₁ ++ x :: l₂ := List.mem_append_right _ List.mem_cons_self
    have hhx : h ≠ x := by
      rintro rfl
      exact hnd'.1 hxl
    rw [if_neg hhx]
    have hprev : prev h = p := hpy
    have hpx : prev x = h ↔ next h = x := hrest.prev_head hnd'.1 hnd'.2 hxl
    have hnx : h ≠ next x := by
      intro he
      rcases (hrest.neighbours hxl).1 with hm | hm
      · exact hnd'.1 (he ▸ hm)
      · exact hy (he.trans hm)
    refine ⟨rfl, hy, ?_, ?_⟩
    · rw [hp h List.mem_cons_self, if_neg hnx]
      exact hprev
    · have hhead := hn h List.mem_cons_self
      have hrec := ih hrest hnd'.2 hnd'.1 (fun z hz => hn z (List.mem_cons_of_mem _ hz))
        (fun z hz => hp z (List.mem_cons_of_mem _ hz))
      rw [hhead]
      by_cases he : next h = x
      · rw [if_pos (hpx.mpr he).symm]
        rwa [if_pos he] at hrec
      · rw [if_neg fun heq => he (hpx.mp heq.symm)]
        rwa [if_neg he] at hrec

end

/-! ## Two-level bitmaps -/

section

variable {w v rows : Nat} {fl : BitVec v} {sl : Nat → BitVec w} {occ : Nat → Nat → Prop}
  {i j : Nat}

/-- Bit `j` of `sl i` is set where `(i, j)` is occupied, bit `i` of `fl` where row `i` has a
bit set. -/
structure Occupancy (rows : Nat) (fl : BitVec v) (sl : Nat → BitVec w)
    (occ : Nat → Nat → Prop) : Prop where
  col : ∀ i j, i < rows → j < w → ((sl i).getLsbD j = true ↔ occ i j)
  row : ∀ i, i < rows → (fl.getLsbD i = true ↔ sl i ≠ 0#w)
  high : ∀ i, rows ≤ i → fl.getLsbD i = false

theorem getLsbD_bit {n : Nat} (i j : Nat) :
    (1#n <<< j).getLsbD i = (decide (i < n) && decide (i = j)) := by
  rw [BitVec.getLsbD_shiftLeft, BitVec.getLsbD_one]
  by_cases hi : i < n <;> by_cases hij : i = j <;> simp [hi, hij] <;> omega

/-- A word is not zero exactly when one of its bits is set. -/
theorem ne_zero_iff {n : Nat} {x : BitVec n} : x ≠ 0#n ↔ ∃ j, j < n ∧ x.getLsbD j = true := by
  constructor
  · intro hx
    by_contra hno
    refine hx (BitVec.eq_of_getLsbD_eq fun j hj => ?_)
    rw [BitVec.getLsbD_zero]
    exact Bool.eq_false_iff.mpr fun hset => hno ⟨j, hj, hset⟩
  · rintro ⟨j, hj, hset⟩ rfl
    simp at hset

/-- The row of an occupied place is marked. -/
theorem Occupancy.marked (h : Occupancy rows fl sl occ) (hi : i < rows) (hj : j < w)
    (ho : occ i j) : fl.getLsbD i = true :=
  (h.row i hi).mpr (ne_zero_iff.mpr ⟨j, hj, (h.col i j hi hj).mpr ho⟩)

theorem Occupancy.congr {occ' : Nat → Nat → Prop} (h : Occupancy rows fl sl occ)
    (ho : ∀ i j, i < rows → j < w → (occ i j ↔ occ' i j)) : Occupancy rows fl sl occ' :=
  ⟨fun i j hi hj => (h.col i j hi hj).trans (ho i j hi hj), h.row, h.high⟩

theorem Occupancy.empty : Occupancy rows (0#v) (fun _ => 0#w) fun _ _ => False :=
  ⟨fun _ _ _ _ => by simp, fun _ _ => by simp, fun _ _ => by simp⟩

/-- Marking a place. -/
theorem Occupancy.set (h : Occupancy rows fl sl occ) (hrows : rows ≤ v) (hi : i < rows)
    (hj : j < w) :
    Occupancy rows (fl ||| 1#v <<< i) (Function.update sl i (sl i ||| 1#w <<< j))
      fun i' j' => occ i' j' ∨ (i' = i ∧ j' = j) := by
  have hbit : (sl i ||| 1#w <<< j).getLsbD j = true := by
    rw [BitVec.getLsbD_or, getLsbD_bit, decide_eq_true hj, decide_eq_true rfl]
    simp
  refine ⟨fun i' j' hi' hj' => ?_, fun i' hi' => ?_, fun i' hi' => ?_⟩
  · rcases eq_or_ne i' i with rfl | hne
    · rw [Function.update_self, BitVec.getLsbD_or, getLsbD_bit, Bool.or_eq_true,
        h.col i' j' hi' hj']
      simp [hj']
    · rw [Function.update_of_ne hne, h.col i' j' hi' hj']
      simp [hne]
  · rcases eq_or_ne i' i with rfl | hne
    · rw [Function.update_self, BitVec.getLsbD_or, getLsbD_bit]
      have hlt : i' < v := Nat.lt_of_lt_of_le hi' hrows
      exact iff_of_true (by simp [hlt]) (ne_zero_iff.mpr ⟨j, hj, hbit⟩)
    · rw [Function.update_of_ne hne, BitVec.getLsbD_or, getLsbD_bit, ← h.row i' hi']
      simp [hne]
  · have hne : i' ≠ i := by omega
    rw [BitVec.getLsbD_or, getLsbD_bit, h.high i' hi']
    simp [hne]

/-- Clearing a place, and its row with the last place of it. -/
theorem Occupancy.clear (h : Occupancy rows fl sl occ) (hi : i < rows) (hj : j < w) :
    Occupancy rows (if sl i &&& ~~~(1#w <<< j) = 0#w then fl &&& ~~~(1#v <<< i) else fl)
      (Function.update sl i (sl i &&& ~~~(1#w <<< j)))
      fun i' j' => occ i' j' ∧ ¬ (i' = i ∧ j' = j) := by
  have hfl : ∀ i', i' ≠ i →
      (if sl i &&& ~~~(1#w <<< j) = 0#w then fl &&& ~~~(1#v <<< i) else fl).getLsbD i' =
        fl.getLsbD i' := by
    intro i' hne
    split
    · rcases Nat.lt_or_ge i' v with hlt | hge
      · rw [BitVec.getLsbD_and, BitVec.getLsbD_not, getLsbD_bit]
        simp [hlt, hne]
      · rw [BitVec.getLsbD_of_ge _ _ hge, BitVec.getLsbD_of_ge _ _ hge]
    · rfl
  refine ⟨fun i' j' hi' hj' => ?_, fun i' hi' => ?_, fun i' hi' => ?_⟩
  · rcases eq_or_ne i' i with rfl | hne
    · rw [Function.update_self, BitVec.getLsbD_and, BitVec.getLsbD_not, getLsbD_bit,
        Bool.and_eq_true, h.col i' j' hi' hj']
      simp [hj']
    · rw [Function.update_of_ne hne, h.col i' j' hi' hj']
      simp [hne]
  · rcases eq_or_ne i' i with rfl | hne
    · rw [Function.update_self]
      split
      next hz =>
        refine iff_of_false ?_ (not_not.mpr hz)
        rw [BitVec.getLsbD_and, BitVec.getLsbD_not, getLsbD_bit]
        simp
      next hz =>
        refine iff_of_true ((h.row i' hi').mpr fun hs => hz ?_) hz
        rw [hs, BitVec.zero_and]
    · rw [Function.update_of_ne hne, hfl i' hne, h.row i' hi']
  · rw [hfl i' (by omega), h.high i' hi']

end

end Segregated
