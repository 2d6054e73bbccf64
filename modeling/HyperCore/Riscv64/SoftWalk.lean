import HyperCore.Core.SoftWalk
import HyperCore.Lib.RvPaging
import HyperCore.Riscv64.LeafCovered

/-!
# `ptw_walk`

The walk in software goes on at a leaf above the last level, with the memory behind the leaf as its next
table. In the trees that the code builds (`PgBuilt.shaped`, `HugeBuilt.shaped`) it agrees with the MMU under
a 2 MB leaf only where that memory happens to hold an entry for the very page (`ptwWalk_agrees_iff`).
-/

namespace HyperCore.Riscv64

open RadixTable Bitmap PageAlloc ArchPage TableMap

/-- `ptw_walk` at level `3 - n`. -/
def ptwWalk (L : Layout) (addr : Nat) : Nat → Nat → HostM Nat
  | 0, curTbl =>
    if curTbl = 0 then pure 0
    else do
      let nextPte ← load L.hostTranslate (curTbl + 8 * pteOffset addr 3)
      if !pteIsValid nextPte then pure 0 else pure (tableBase nextPte)
  | n + 1, curTbl =>
    if curTbl = 0 then pure 0
    else do
      let nextPte ← load L.hostTranslate (curTbl + 8 * pteOffset addr (2 - n))
      if !pteIsValid nextPte then pure 0
      else ptwWalk L addr n (L.phyToVir (tableBase nextPte))

/-- The address with the bits above the four levels repeating the highest of them. -/
abbrev Canonical (va : Nat) : Prop := RvPaging.Canonical 4 (BitVec.ofNat 64 va)

/-- What the MMU makes of `va` from `table` on, with `n` levels below it. -/
def translationFrom (m : Nat → Word) (va table n : Nat) : Option Nat :=
  if Canonical va then (sv48WalkFrom m va table n).map Prod.fst else none

/-- What the MMU makes of `va`. -/
def sv48Translation (m : Nat → Word) (root va : Nat) : Option Nat := translationFrom m va root 3

/-! ## The trees of the code -/

/-- What the code puts on the path of `va` above the last level: links to tables, and leaves in the
tables of level 2. -/
def Shaped (m : Nat → Word) (va : Nat) : Nat → Nat → Prop
  | _, 0 => True
  | table, n + 1 =>
    let pte := m (table + 8 * vpn va (n + 1))
    pteIsValid pte = true → (n = 0 ∧ LeafWord pte) ∨
      ∃ c, 0 < c ∧ c % 4096 = 0 ∧ c < 2 ^ 56 ∧ pte = (makePgEntry c).bits ∧ Shaped m va c n

/-- The entry of the last level that the walk of `va` meets. -/
def lastEntry (m : Nat → Word) (va : Nat) : Nat → Nat → Option Word
  | table, 0 => some (m (table + 8 * vpn va 0))
  | table, n + 1 =>
    let pte := m (table + 8 * vpn va (n + 1))
    if pteIsValid pte && !isLeaf pte then lastEntry m va (tableBase pte) n else none

/-- The word in the memory behind a 2 MB leaf that `ptw_walk` takes for the entry of `va`. -/
def wordBehind (va : Nat) (pte : Word) : Nat := tableBase pte + 8 * vpn va 0

/-- The walk goes right past the leaf `pte`. If the leaf translates `va`, the word behind it must be a
valid entry with the page that the leaf gives to `va`; else it must be no entry of a page. -/
def RightBehind (L : Layout) (m : Nat → Word) (va : Nat) (pte : Word) : Prop :=
  if Canonical va ∧ baseField pte % 2 ^ 9 = 0 then
    baseField pte ≠ 0 ∧ ¬ Past L (wordBehind va pte) ∧ pteIsValid (m (wordBehind va pte)) = true ∧
      baseField (m (wordBehind va pte)) = baseField pte + vpn va 0
  else
    baseField pte ≠ 0 → ¬ Past L (wordBehind va pte) ∧
      (pteIsValid (m (wordBehind va pte)) = true → baseField (m (wordBehind va pte)) = 0)

/-- Where `ptw_walk` is right about `va` from `table` on: the entries of the path lie in the direct map; a
valid entry of the last level has an address that is not 0 exactly if the MMU translates `va` by it; and
the walk goes right past a leaf. -/
structure ResolvesFrom (L : Layout) (m : Nat → Word) (va table n : Nat) : Prop where
  path : ∀ a, a ∈ walkPath m va table n → ¬ Past L a
  page : ∀ pte, lastEntry m va table n = some pte → pteIsValid pte = true →
    (baseField pte ≠ 0 ↔ Canonical va ∧ (pgLeaf va pte).isSome = true)
  leaf : ∀ t k, leafAbove m va table n = some (t, k) → RightBehind L m va (m (t + 8 * vpn va k))

/-- Where `ptw_walk` is right about `va`. -/
abbrev Resolves (L : Layout) (m : Nat → Word) (root va : Nat) : Prop := ResolvesFrom L m va root 3

/-! ## The walk -/

section

variable {L : Layout} {m : Nat → Word} {va table n : Nat} {h : Host}

theorem tableBase_eq_zero (pte : Word) : tableBase pte = 0 ↔ baseField pte = 0 := by
  rw [tableBase, Nat.mul_eq_zero, or_iff_left (by decide)]

/-- Every table that an entry names is reached in the same way. -/
theorem pointsTo_base (L : Layout) {pte : Word} (hb : baseField pte ≠ 0) :
    PointsTo L (L.phyToVir (tableBase pte)) (tableBase pte) := by
  have hlt : baseField pte < 2 ^ 44 := Nat.mod_lt _ (by decide)
  have hpos := Nat.pos_of_ne_zero hb
  refine pointsTo_table L (Nat.mul_mod_left _ _) (Nat.mul_pos hpos (by decide)) ?_
  rw [tableBase]
  omega

/-- The last level of the code. -/
theorem ptwWalk_last {v : Nat} (va : Nat) (h : Host) (hp : PointsTo L v table) :
    (Past L (table + 8 * vpn va 0) ∧ ptwWalk L va 0 v h = .error .fault h) ∨
      (¬ Past L (table + 8 * vpn va 0) ∧ ptwWalk L va 0 v h =
        .ok (if pteIsValid (h.mem (table + 8 * vpn va 0)) then tableBase (h.mem (table + 8 * vpn va 0))
          else 0) h) := by
  have hi : vpn va 0 < 512 := Nat.mod_lt _ (by decide)
  rw [ptwWalk, if_neg hp.2.1]
  rcases hp.2.2 _ hi with ⟨hpast, hdark⟩ | ⟨hno, htr⟩
  · exact .inl ⟨hpast, bind_error (load_dark hdark)⟩
  · refine .inr ⟨hno, ?_⟩
    have hload : load L.hostTranslate (v + 8 * pteOffset va 3) h = .ok _ h := load_reached htr
    rw [bind_ok hload]
    cases pteIsValid (h.mem (table + 8 * vpn va 0)) <;> rfl

/-- One level of the code above the last. -/
theorem ptwWalk_level {v : Nat} (va n : Nat) (h : Host) (hp : PointsTo L v table) (hn : n ≤ 2) :
    (Past L (table + 8 * vpn va (n + 1)) ∧ ptwWalk L va (n + 1) v h = .error .fault h) ∨
      (¬ Past L (table + 8 * vpn va (n + 1)) ∧ ptwWalk L va (n + 1) v h =
        if pteIsValid (h.mem (table + 8 * vpn va (n + 1))) then
          ptwWalk L va n (L.phyToVir (tableBase (h.mem (table + 8 * vpn va (n + 1))))) h
        else .ok 0 h) := by
  have hi : vpn va (n + 1) < 512 := Nat.mod_lt _ (by decide)
  have hidx : (pteOffset va (2 - n) : Nat) = vpn va (n + 1) := by
    have hlevel : 3 - (2 - n) = n + 1 := by omega
    rw [pteOffset, hlevel]
    rfl
  rw [ptwWalk, if_neg hp.2.1, hidx]
  rcases hp.2.2 _ hi with ⟨hpast, hdark⟩ | ⟨hno, htr⟩
  · exact .inl ⟨hpast, bind_error (load_dark hdark)⟩
  · refine .inr ⟨hno, ?_⟩
    rw [bind_ok (load_reached htr)]
    cases pteIsValid (h.mem (table + 8 * vpn va (n + 1))) <;> rfl

/-- The null pointer ends the code's walk. -/
theorem ptwWalk_null (L : Layout) (va n : Nat) (h : Host) : ptwWalk L va n 0 h = .ok 0 h := by
  cases n <;> rfl

/-- What the last level of the hardware's walk makes of an entry. -/
theorem translationFrom_last (m : Nat → Word) (va table : Nat) :
    translationFrom m va table 0 =
      if Canonical va ∧ (pgLeaf va (m (table + 8 * vpn va 0))).isSome = true then
        some (tableBase (m (table + 8 * vpn va 0)) + va % 4096) else none := by
  have hwalk : sv48WalkFrom m va table 0 = pgLeaf va (m (table + 8 * vpn va 0)) := by
    have hmod : baseField (m (table + 8 * vpn va 0)) * 4096 % 2 ^ (12 + 9 * 0) = 0 := by omega
    rw [sv48WalkFrom]
    simp only [hmod, if_true, pgLeaf, tableBase]
    split
    · rfl
    · split
      · rfl
      · exact ite_self _
  rw [translationFrom, hwalk, ite_and]
  congr 1
  rw [pgLeaf]
  split
  · rfl
  · split <;> rfl

theorem translationFrom_invalid (hv : pteIsValid (m (table + 8 * vpn va n)) = false) :
    translationFrom m va table n = none := by
  have hwalk : sv48WalkFrom m va table n = none := by
    rw [sv48WalkFrom.eq_def]
    simp only [hv, Bool.not_false, Bool.true_or, if_true]
  rw [translationFrom, hwalk]
  exact ite_self _

theorem translationFrom_link {c : Nat} (hc : c % 4096 = 0) (hlt : c < 2 ^ 56)
    (hd : m (table + 8 * vpn va (n + 1)) = (makePgEntry c).bits) :
    translationFrom m va table (n + 1) = translationFrom m va c n := by
  have hbase := tableBase_link hc hlt
  rw [tableBase] at hbase
  rw [translationFrom, translationFrom, sv48WalkFrom]
  simp only [Nat.succ_eq_add_one, hd, pteIsValid_link, flagsOf_link, highBits_bits, hbase]
  rfl

/-- The conditions on an invalid entry: it lies in the direct map. -/
theorem resolvesFrom_invalid (hv : pteIsValid (m (table + 8 * vpn va (n + 1))) = false) :
    ResolvesFrom L m va table (n + 1) ↔ ¬ Past L (table + 8 * vpn va (n + 1)) := by
  constructor
  · intro hr
    exact hr.path _ List.mem_cons_self
  · intro hno
    refine ⟨fun a ha => ?_, fun pte he => ?_, fun t k hl => ?_⟩
    · simp only [walkPath, hv, Bool.false_and, Bool.false_eq_true, if_false, List.mem_singleton] at ha
      exact ha ▸ hno
    · simp only [lastEntry, hv, Bool.false_and, Bool.false_eq_true, if_false, reduceCtorEq] at he
    · simp only [leafAbove, hv, Bool.not_false, if_true, reduceCtorEq] at hl

/-- The conditions on a link: it lies in the direct map, and those on the table. -/
theorem resolvesFrom_link {c : Nat} (hc : c % 4096 = 0) (hlt : c < 2 ^ 56)
    (hd : m (table + 8 * vpn va (n + 1)) = (makePgEntry c).bits) :
    ResolvesFrom L m va table (n + 1) ↔
      ¬ Past L (table + 8 * vpn va (n + 1)) ∧ ResolvesFrom L m va c n := by
  obtain ⟨hleaf, hpath⟩ := leafAbove_link hc hlt hd
  have hlast : lastEntry m va table (n + 1) = lastEntry m va c n := by
    rw [lastEntry, hd, tableBase_link hc hlt, pteIsValid_link, isLeaf_link]
    rfl
  constructor
  · rintro ⟨hp, he, hl⟩
    rw [hpath] at hp
    rw [hlast] at he
    rw [hleaf] at hl
    exact ⟨hp _ List.mem_cons_self, fun a ha => hp a (List.mem_cons_of_mem _ ha), he, hl⟩
  · rintro ⟨hno, hp, he, hl⟩
    refine ⟨fun a ha => ?_, hlast ▸ he, hleaf ▸ hl⟩
    rw [hpath] at ha
    rcases List.mem_cons.mp ha with rfl | ha
    · exact hno
    · exact hp a ha

/-- The conditions on a 2 MB leaf: it lies in the direct map, and the walk goes right past it. -/
theorem resolvesFrom_leaf (hd : LeafWord (m (table + 8 * vpn va 1))) :
    ResolvesFrom L m va table 1 ↔
      ¬ Past L (table + 8 * vpn va 1) ∧ RightBehind L m va (m (table + 8 * vpn va 1)) := by
  obtain ⟨pa, attr, hacc, hw⟩ := hd
  have hv : pteIsValid (m (table + 8 * vpn va 1)) = true := by rw [hw, pteIsValid_leaf]
  have hl : isLeaf (m (table + 8 * vpn va 1)) = true := by rw [hw, isLeaf_leaf hacc]
  have hleaf : leafAbove m va table 1 = some (table, 1) := by
    simp only [leafAbove, hv, hl, Bool.not_true, Bool.false_eq_true, if_false, if_true]
  have hpath : walkPath m va table 1 = [table + 8 * vpn va 1] := by
    simp only [walkPath, hv, hl, Bool.not_true, Bool.and_false, Bool.false_eq_true, if_false]
  have hlast : lastEntry m va table 1 = none := by
    simp only [lastEntry, hv, hl, Bool.not_true, Bool.and_false, Bool.false_eq_true, if_false]
  constructor
  · intro hr
    exact ⟨hr.path _ (hpath ▸ List.mem_cons_self), hr.leaf table 1 hleaf⟩
  · rintro ⟨hno, hright⟩
    refine ⟨fun a ha => ?_, fun pte he => ?_, fun t k he => ?_⟩
    · rw [hpath] at ha
      exact List.mem_singleton.mp ha ▸ hno
    · rw [hlast] at he
      cases he
    · rw [hleaf] at he
      cases he
      exact hright

/-- The hardware's walk at a 2 MB leaf. -/
theorem translationFrom_leaf (hd : LeafWord (m (table + 8 * vpn va 1))) :
    translationFrom m va table 1 =
      if Canonical va ∧ baseField (m (table + 8 * vpn va 1)) % 2 ^ 9 = 0 then
        some (tableBase (m (table + 8 * vpn va 1)) + va % 2 ^ 21) else none := by
  obtain ⟨pa, attr, hacc, hw⟩ := hd
  have hword : m (table + 8 * vpn va 1) = (leafEntry (leafPage pa) attr).bits := by
    rw [leafEntry_leafPage, hw]
  have hlt : leafPage pa < 2 ^ 56 := by
    simp only [leafPage]
    omega
  have hal : leafPage pa % 4096 = 0 := Nat.mul_mod_left _ _
  have hbase : tableBase (m (table + 8 * vpn va 1)) = leafPage pa := by
    rw [hword, tableBase_leaf attr hal hlt]
  have hiff : leafPage pa % 2 ^ 21 = 0 ↔ baseField (m (table + 8 * vpn va 1)) % 2 ^ 9 = 0 := by
    rw [← hbase, tableBase]
    omega
  rw [translationFrom, sv48WalkFrom_huge hacc hlt hal hword, ite_and, hbase]
  simp only [hiff]
  congr 1
  split <;> rfl

/-- The conditions on the last level. -/
theorem resolvesFrom_last : ResolvesFrom L m va table 0 ↔ ¬ Past L (table + 8 * vpn va 0) ∧
    (pteIsValid (m (table + 8 * vpn va 0)) = true → (baseField (m (table + 8 * vpn va 0)) ≠ 0 ↔
      Canonical va ∧ (pgLeaf va (m (table + 8 * vpn va 0))).isSome = true)) := by
  constructor
  · intro hr
    exact ⟨hr.path _ List.mem_cons_self, hr.page _ rfl⟩
  · rintro ⟨hno, hpage⟩
    refine ⟨fun a ha => ?_, fun pte he => ?_, fun t k hl => nomatch hl⟩
    · exact List.mem_singleton.mp ha ▸ hno
    · obtain rfl := Option.some.inj he
      exact hpage

/-- The last level agrees. -/
theorem last_agrees_iff {v : Nat} (hp : PointsTo L v table) :
    Agrees (fun page => page + va % 4096) h (ptwWalk L va 0 v h) (translationFrom h.mem va table 0) ↔
      ResolvesFrom L h.mem va table 0 := by
  rw [resolvesFrom_last]
  rcases ptwWalk_last va h hp with ⟨hpast, hrun⟩ | ⟨hno, hrun⟩
  · rw [hrun]
    exact ⟨fun hag => absurd hag Agrees.not_error, fun hr => absurd hpast hr.1⟩
  · rw [hrun, agrees_ok, translationFrom_last, and_iff_right hno]
    obtain ⟨d, hd⟩ : ∃ d, d = h.mem (table + 8 * vpn va 0) := ⟨_, rfl⟩
    rw [← hd]
    cases hv : pteIsValid d with
    | false =>
      rw [pgLeaf_dead hv]
      simp only [Bool.false_eq_true, if_false, if_true, Option.isSome_none, and_false, false_implies]
    | true =>
      simp only [if_true, true_implies, tableBase_eq_zero]
      split
      · next h0 => simp only [h0, ne_eq, not_true, false_iff, ite_eq_right_iff, reduceCtorEq, imp_false]
      · next hne => simp only [hne, ne_eq, not_false_eq_true, true_iff, ite_eq_left_iff, reduceCtorEq,
          imp_false, not_not]

/-- The page that the word behind a leaf names is the page of `va`. -/
theorem behind_eq_iff (va base word : Nat) :
    base * 4096 + va % 2 ^ 21 = word * 4096 + va % 4096 ↔ word = base + vpn va 0 := by
  simp only [vpn]
  omega

/-- A walk past a 2 MB leaf agrees. -/
theorem leaf_agrees_iff (hd : LeafWord (h.mem (table + 8 * vpn va 1))) :
    Agrees (fun page => page + va % 4096) h
        (ptwWalk L va 0 (L.phyToVir (tableBase (h.mem (table + 8 * vpn va 1)))) h)
        (translationFrom h.mem va table 1) ↔
      RightBehind L h.mem va (h.mem (table + 8 * vpn va 1)) := by
  rw [translationFrom_leaf hd, RightBehind]
  obtain ⟨d, hdd⟩ : ∃ d, d = h.mem (table + 8 * vpn va 1) := ⟨_, rfl⟩
  obtain ⟨w, hw⟩ : ∃ w, w = h.mem (wordBehind va d) := ⟨_, rfl⟩
  rw [← hdd, ← hw]
  rcases Nat.eq_zero_or_pos (baseField d) with h0 | hpos
  · have hnull : L.phyToVir (tableBase d) = 0 := by
      rw [(tableBase_eq_zero d).mpr h0, Layout.phyToVir, if_pos L.pagePhysOffset_pos]
    rw [hnull, ptwWalk_null, agrees_ok]
    simp only [h0, ne_eq, not_true, false_and, false_implies, if_true]
    split <;> simp only [reduceCtorEq]
  · have hne := Nat.ne_of_gt hpos
    rcases ptwWalk_last va h (pointsTo_base L hne) with ⟨hpast, hrun⟩ | ⟨hno, hrun⟩
    · have hpast : Past L (wordBehind va d) := hpast
      rw [hrun]
      refine ⟨fun hag => absurd hag Agrees.not_error, fun hright => ?_⟩
      split at hright
      · exact absurd hpast hright.2.1
      · exact absurd hpast (hright hne).1
    · have hno : ¬ Past L (wordBehind va d) := hno
      have hrun : ptwWalk L va 0 (L.phyToVir (tableBase d)) h =
          .ok (if pteIsValid w then tableBase w else 0) h := by rw [hrun, hw]; rfl
      rw [hrun, agrees_ok]
      simp only [hne, hno, ne_eq, not_false_eq_true, true_and, true_implies]
      cases hv : pteIsValid w with
      | false =>
        simp only [Bool.false_eq_true, if_false, if_true, false_and, false_implies]
        split <;> simp only [reduceCtorEq]
      | true =>
        simp only [if_true, true_and, true_implies, tableBase_eq_zero]
        split
        · next hw0 =>
          split
          · simp only [hw0, reduceCtorEq, false_iff]
            omega
          · simp only [hw0]
        · next hwne =>
          split
          · -- the leaf translates: the page that the word names is compared
            rw [Option.some.injEq, tableBase, tableBase]
            exact behind_eq_iff va (baseField d) (baseField w)
          · simp only [hwne, reduceCtorEq]

/-- `ptw_walk` agrees with the MMU exactly under these conditions. -/
theorem ptwWalk_agrees_iff (hn : n ≤ 3) : ∀ {table v}, PointsTo L v table → Shaped h.mem va table n →
    (Agrees (fun page => page + va % 4096) h (ptwWalk L va n v h) (translationFrom h.mem va table n) ↔
      ResolvesFrom L h.mem va table n) := by
  induction n with
  | zero => exact fun hp _ => last_agrees_iff hp
  | succ n ih =>
    intro table v hp hs
    rcases ptwWalk_level va n h hp (Nat.le_of_succ_le_succ hn) with ⟨hpast, hrun⟩ | ⟨hno, hrun⟩
    · rw [hrun]
      exact ⟨fun hag => absurd hag Agrees.not_error, fun hr => absurd hpast (hr.path _ List.mem_cons_self)⟩
    · rw [hrun]
      rw [Shaped] at hs
      cases hv : pteIsValid (h.mem (table + 8 * vpn va (n + 1))) with
      | false =>
        rw [resolvesFrom_invalid hv, translationFrom_invalid hv]
        simp only [Bool.false_eq_true, if_false]
        exact ⟨fun _ => hno, fun _ => rfl⟩
      | true =>
        simp only [if_true]
        rcases hs hv with ⟨rfl, hleaf⟩ | ⟨c, hpos, hc, hlt, hd, hs⟩
        · rw [resolvesFrom_leaf hleaf, and_iff_right hno]
          exact leaf_agrees_iff hleaf
        · rw [resolvesFrom_link hc hlt hd, translationFrom_link hc hlt hd, and_iff_right hno, hd,
            tableBase_link hc hlt]
          exact ih (Nat.le_of_succ_le hn) (pointsTo_table L hc hpos hlt) hs

end

/-! ## The trees have that shape -/

section

variable {L : Layout} {root va : Nat} {h : Host}

/-- A table of the tree, from the next one. -/
theorem shaped_table {depth n k b : Nat} (ht : Tables (pgMapper L false) root depth h) (hk : k + n = 2)
    (hkd : k < depth) (hb : tableAt (pgMapper L false).format h.mem root (pgIndex 0 va) k = some b)
    (hnext : ∀ c, tableAt (pgMapper L false).format h.mem root (pgIndex 0 va) (k + 1) = some c →
      Shaped h.mem va c n) : Shaped h.mem va b (n + 1) := by
  have haddr : b + 8 * vpn va (n + 1) = slot b (pgIndex 0 va k) := by
    rw [slot_pgIndex, show 3 - k = n + 1 by omega]
  rw [Shaped, haddr]
  intro hv
  rcases ht.tree.entry hkd hb (pgIndex 0 va k) with he | he
  · rw [he] at hv
    exact absurd (pteIsValid_zero.symm.trans hv) Bool.false_ne_true
  · obtain ⟨c, hc⟩ := Option.isSome_iff_exists.mp he
    have hstep := (tableAt_succ hb).trans hc
    obtain ⟨p, hp, rfl, -⟩ := ht.owned (Nat.succ_pos k) hkd hstep
    have hlt := L.physPage_lt (show p < 2 ^ 20 by omega)
    exact .inr ⟨_, L.physPage_pos p, L.physPage_mod p, by omega, (pgMapper L false).eq_entry hc,
      hnext _ hstep⟩

/-- Trees of 4 KB leaves. -/
theorem shaped_pages (ht : Tables (pgMapper L false) root 3 h) (va : Nat) : Shaped h.mem va root 3 :=
  shaped_table (n := 2) ht rfl (by decide) rfl fun _ h1 =>
    shaped_table (n := 1) ht rfl (by decide) h1 fun _ h2 =>
      shaped_table (n := 0) ht rfl (by decide) h2 fun _ _ => trivial

theorem PgBuilt.shaped (hr : StaticRoot L root) (hb : PgBuilt L root h) (va : Nat) :
    Shaped h.mem va root 3 := shaped_pages (hb.tree hr).tables va

/-- Trees of 4 KB and 2 MB leaves. -/
theorem HugeBuilt.shaped (hr : StaticRoot L root) (hb : HugeBuilt L root h) (va : Nat) :
    Shaped h.mem va root 3 := by
  have hm := hb.mixed hr
  refine shaped_table (n := 2) hm.tables rfl (by decide) rfl fun _ h1 =>
    shaped_table (n := 1) hm.tables rfl (by decide) h1 fun t h2 hv => ?_
  have haddr : t + 8 * vpn va (0 + 1) = slot t (pgIndex 0 va 2) := (slot_pgIndex t va 2).symm
  rw [haddr] at hv ⊢
  have hne : h.mem (slot t (pgIndex 0 va 2)) ≠ 0 := fun h0 => by
    rw [h0] at hv
    exact absurd (pteIsValid_zero.symm.trans hv) Bool.false_ne_true
  have hlook : lookup (pgMapper L false).format content h.mem root 2 (pgIndex 0 va) =
      some (h.mem (slot t (pgIndex 0 va 2))) := by
    rw [lookup, h2]
    exact content_eq_some.mpr ⟨rfl, hne⟩
  rcases hm.entry _ _ hlook with hleaf | ⟨p, hp, hw, -⟩
  · exact .inl ⟨rfl, hleaf⟩
  · have hlt := L.physPage_lt (show p < 2 ^ 20 by omega)
    exact .inr ⟨_, L.physPage_pos p, L.physPage_mod p, by omega, hw, trivial⟩

theorem StaticRoot.pointsTo (hr : StaticRoot L root) : PointsTo L root root :=
  pointsTo_image hr.aligned hr.ne_zero hr.inside

end

end HyperCore.Riscv64
