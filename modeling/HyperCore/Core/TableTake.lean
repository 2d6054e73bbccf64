import HyperCore.Core.TableGrow

/-!
# Which pages a mapper takes

The allocator's single pages are even, and it hands out the lowest free one. So `k` allocations take
the `k` lowest free even pages (`TakenFrom.bits`), and a mapper that needed `c` tables has taken the
`c` lowest (`Grown.taken`).
-/

namespace HyperCore.TableMap

open Bitmap PageAlloc ArchPage RadixTable

/-! ## Allocations in a row -/

/-- `k` allocations of a page lead from `bm` to another bitmap. -/
inductive TakenFrom (bm : Bitmap) : Nat → Bitmap → Prop
  | none : TakenFrom bm 0 bm
  | next {k : Nat} {b b' : Bitmap} {fn : Int} : TakenFrom bm k b → allocOnePage b = (fn, b') →
      TakenFrom bm (k + 1) b'

theorem TakenFrom.trans {bm b b' : Bitmap} {k k' : Nat} (h : TakenFrom bm k b)
    (h' : TakenFrom b k' b') : TakenFrom bm (k + k') b' := by
  induction h' with
  | none => exact h
  | next _ ha ih => exact ih.next ha

/-- `p` is one of the `k` lowest free even pages. -/
def Lowest (bm : Bitmap) (k p : Nat) : Prop := FreeRun bm 1 p ∧ evenFree bm (p / 2) < k

/-- Even pages are counted by one, each free page before the next. -/
theorem evenFree_le_of_lowest {bm : Bitmap} {k n : Nat}
    (h : ∀ j, j < n → bit bm (2 * j) = false → evenFree bm j < k) : evenFree bm n ≤ k := by
  induction n with
  | zero => exact Nat.zero_le _
  | succ n ih =>
    rw [evenFree_succ]
    cases hb : bit bm (2 * n) with
    | true => exact ih fun j hj => h j (Nat.lt_succ_of_lt hj)
    | false => exact h n (Nat.lt_succ_self n) hb

theorem evenFree_lt_of_free {bm : Bitmap} {i j : Nat} (hij : i < j)
    (hfree : bit bm (2 * i) = false) : evenFree bm i < evenFree bm j := by
  have hstep := evenFree_succ bm i
  rw [hfree, if_neg Bool.false_ne_true] at hstep
  have hmono : evenFree bm (i + 1) ≤ evenFree bm j := evenFree_mono hij
  omega

theorem TakenFrom.bits {bm b : Bitmap} {k : Nat} (h : TakenFrom bm k b) (p : Nat) :
    bit b p = true ↔ bit bm p = true ∨ Lowest bm k p := by
  induction h generalizing p with
  | none => simp [Lowest]
  | @next k b b' fn _ halloc ih =>
    have hstays (j : Nat) : bit b j = false ↔ bit bm j = false ∧ ¬ Lowest bm k j := by
      rw [← Bool.not_eq_true, ih, not_or, Bool.not_eq_true]
    have hsucc (p : Nat) : Lowest bm (k + 1) p ↔
        Lowest bm k p ∨ FreeRun bm 1 p ∧ evenFree bm (p / 2) = k := by
      rw [Lowest, Lowest, ← and_or_left, Nat.lt_succ_iff_lt_or_eq]
    rcases allocOnePage_spec b with ⟨q, hrun, hq'⟩ | ⟨hq', hnone⟩
    · rw [halloc, Prod.mk.injEq] at hq'
      have hq := freeRun_one.mp hrun.1
      have hqfree := (hstays q).mp hq.2.2
      -- `q` is the free page with exactly `k` free ones below it
      have hcount : evenFree bm (q / 2) = k := by
        refine Nat.le_antisymm (evenFree_le_of_lowest fun j hj hfree => ?_) ?_
        · by_contra hge
          have hj' : FreeRun b 1 (2 * j) := by
            refine freeRun_one.mpr ⟨by omega, by omega, (hstays _).mpr ⟨hfree, fun hlow => hge ?_⟩⟩
            have hlt := hlow.2
            rwa [Nat.mul_div_cancel_left j (by decide)] at hlt
          have hle := hrun.2 _ hj'
          omega
        · by_contra hlt
          exact hqfree.2 ⟨freeRun_one.mpr ⟨hq.1, hq.2.1, hqfree.1⟩, Nat.lt_of_not_le hlt⟩
      rw [hq'.2, bit_setBits_one hq.2.1, Bool.or_eq_true, decide_eq_true_eq, ih, hsucc]
      constructor
      · rintro (rfl | hold | hlow)
        · exact .inr (.inr ⟨freeRun_one.mpr ⟨hq.1, hq.2.1, hqfree.1⟩, hcount⟩)
        · exact .inl hold
        · exact .inr (.inl hlow)
      · rintro (hold | hlow | ⟨hfree, hk⟩)
        · exact .inr (.inl hold)
        · exact .inr (.inr hlow)
        · have hp := freeRun_one.mp hfree
          rcases Nat.lt_trichotomy (p / 2) (q / 2) with hlt | heq | hgt
          · have hless := evenFree_lt_of_free hlt
              (by rw [show 2 * (p / 2) = p by omega]; exact hp.2.2)
            omega
          · exact .inl (by omega)
          · have hless := evenFree_lt_of_free hgt
              (by rw [show 2 * (q / 2) = q by omega]; exact hqfree.1)
            omega
    · rw [halloc, Prod.mk.injEq] at hq'
      rw [hq'.2, ih, hsucc]
      refine or_congr_right ⟨.inl, fun h => h.resolve_right fun ⟨hfree, hk⟩ => ?_⟩
      have hp := freeRun_one.mp hfree
      have hpos : 0 < evenFree b (totalPages / 2) := by
        have hlt : p / 2 < totalPages / 2 := by
          simp only [totalPages] at hp ⊢
          omega
        refine evenFree_pos hlt ((hstays _).mpr ?_)
        rw [show 2 * (p / 2) = p by omega]
        exact ⟨hp.2.2, fun hlow => Nat.ne_of_lt hlow.2 hk⟩
      omega

theorem TakenFrom.count {bm b : Bitmap} {k n : Nat} (h : TakenFrom bm k b) (hn : n ≤ 2 ^ 19) :
    evenFree b n + min k (evenFree bm n) = evenFree bm n := by
  induction n with
  | zero => simp [evenFree]
  | succ n ih =>
    have hlow : bit b (2 * n) = true ↔ bit bm (2 * n) = true ∨ evenFree bm n < k := by
      rw [h.bits, Lowest, freeRun_one, Nat.mul_div_cancel_left n (by decide)]
      refine or_congr_right' fun hfree => and_iff_right ⟨by omega, ?_, by simpa using hfree⟩
      simp only [totalPages]
      omega
    specialize ih (by omega)
    rw [evenFree_succ, evenFree_succ]
    cases hold : bit bm (2 * n) with
    | true =>
      rw [hlow.2 (.inl hold), if_pos rfl]
      exact ih
    | false =>
      rw [hold] at hlow
      by_cases hk : evenFree bm n < k
      · rw [hlow.2 (.inr hk), if_pos rfl, if_neg Bool.false_ne_true]
        omega
      · rw [if_neg fun hb => (hlow.1 hb).elim Bool.false_ne_true hk, if_neg Bool.false_ne_true]
        omega

/-! ## The allocations of a program -/

section

variable {α β : Type} {x : HostM α} {f : α → HostM β}

/-- The program changes the bitmap by one-page allocations only. -/
def Allocs (x : HostM α) : Prop :=
  ∀ h a h', x h = .ok a h' → ∃ k, TakenFrom h.bitmap k h'.bitmap

theorem Allocs.bind (hx : Allocs x) (hf : ∀ a, Allocs (f a)) : Allocs (x >>= f) := by
  intro h b h' hb
  obtain ⟨a, h₁, h1, h2⟩ := bind_eq_ok hb
  obtain ⟨k, hk⟩ := hx _ _ _ h1
  obtain ⟨k', hk'⟩ := hf a _ _ _ h2
  exact ⟨k + k', hk.trans hk'⟩

theorem Allocs.of_same (hx : ∀ h a h', x h = .ok a h' → h'.bitmap = h.bitmap) : Allocs x :=
  fun h a h' he => ⟨0, hx h a h' he ▸ .none⟩

theorem Allocs.pure (a : α) : Allocs (Pure.pure a : HostM α) := by
  refine .of_same ?_
  rintro h b h' ⟨⟩
  rfl

theorem allocs_load (tr : Nat → Option Nat) (va : Nat) : Allocs (load tr va) := by
  refine .of_same fun h a h' he => ?_
  unfold load at he
  split at he <;> cases he
  rfl

theorem allocs_storeLink (tr : Nat → Option Nat) (va : Nat) (e : Word) (page : Nat) :
    Allocs (storeLink tr va e page) := by
  refine .of_same fun h a h' he => ?_
  unfold storeLink at he
  split at he <;> cases he
  rfl

theorem allocs_storeLeaf (tr : Nat → Option Nat) (va : Nat) (e : Word) :
    Allocs (storeLeaf tr va e) := by
  refine .of_same fun h a h' he => ?_
  unfold storeLeaf at he
  split at he <;> cases he
  rfl

theorem allocs_clearPage (tr : Nat → Option Nat) (va : Nat) : Allocs (clearPage tr va) := by
  refine .of_same fun h a h' he => ?_
  unfold clearPage at he
  split at he <;> cases he
  rfl

theorem allocs_takePage : Allocs takePage := by
  intro h a h' he
  cases halloc : allocOnePage h.bitmap with
  | mk fn bm =>
    simp only [takePage, halloc, EStateM.Result.ok.injEq] at he
    obtain ⟨-, rfl⟩ := he
    exact ⟨1, TakenFrom.none.next halloc⟩

end

namespace Mapper

variable {L : Layout} (M : Mapper L)

theorem allocs_nextTable (table i : Nat) : Allocs (M.nextTable table i) := by
  refine (allocs_load _ _).bind fun e => ?_
  have hrest : Allocs (load M.tr (table + 8 * i) >>= fun e =>
      if M.stop e then Pure.pure table else Pure.pure (M.tableAddr (M.base e))) := by
    refine (allocs_load _ _).bind fun e => ?_
    split <;> exact .pure _
  cases hv : M.valid e with
  | true => simpa [hv] using hrest
  | false =>
    have hlink : Allocs (M.linkTable (table + 8 * i)) :=
      allocs_takePage.bind fun fn => (allocs_clearPage _ _).bind fun _ => allocs_storeLink _ _ _ _
    simpa [hv] using hlink.bind fun _ => hrest

theorem allocs_descend (root : Nat) (idx : Nat → Fin 512) (k : Nat) :
    Allocs (M.descend root idx k) := by
  induction k with
  | zero => exact .pure root
  | succ k ih => exact ih.bind fun t => M.allocs_nextTable t _

theorem allocs_mapPage (root depth : Nat) (idx : Nat → Fin 512) (e : Word) :
    Allocs (M.mapPage root depth idx e) :=
  (M.allocs_descend root idx depth).bind fun _ => allocs_storeLeaf _ _ _

theorem allocs_mapPages (root depth : Nat) (idx : Nat → Nat → Fin 512) (e : Nat → Word) (n : Nat) :
    Allocs (M.mapPages root depth idx e n) := by
  induction n with
  | zero => exact .pure ()
  | succ n ih => exact Allocs.bind ih fun _ => M.allocs_mapPage root depth _ _

end Mapper

/-! ## The pages of a grown tree -/

/-- A tree that has grown by `c` tables has taken the `c` lowest free even pages. -/
theorem Grown.taken {L : Layout} {M : Mapper L} {root depth c : Nat}
    {S : (Nat → Fin 512) → Nat → Prop} {h h' : Host} (hg : Grown M root depth S c h h')
    (ha : ∃ k, TakenFrom h.bitmap k h'.bitmap) (p : Nat) :
    bit h'.bitmap p = true ↔ bit h.bitmap p = true ∨ Lowest h.bitmap c p := by
  obtain ⟨k, hk⟩ := ha
  have hbits := hk.bits
  have hcount : evenFree h'.bitmap (2 ^ 19) + c = evenFree h.bitmap (2 ^ 19) :=
    hg.count (Nat.le_trans M.half_le (by decide))
  have hmin := hk.count (Nat.le_refl (2 ^ 19))
  rw [hbits]
  refine or_congr_right (and_congr_right fun hfree => ?_)
  -- a program that ran out of pages has taken all there were
  have hbelow : evenFree h.bitmap (p / 2) < evenFree h.bitmap (2 ^ 19) := by
    have hp := freeRun_one.mp hfree
    refine evenFree_lt_of_free ?_ (by rw [show 2 * (p / 2) = p by omega]; exact hp.2.2)
    simp only [totalPages] at hp
    omega
  omega

end HyperCore.TableMap
