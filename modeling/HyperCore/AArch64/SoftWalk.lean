import HyperCore.AArch64.BlockDescent
import HyperCore.Core.SoftWalk

/-!
# `__walk_page_table`

The walk in software stops at a page or a block and answers its base, and `ptw_test` adds the offset in a
page. In the trees that the code builds (`HostBuilt.shaped`, `twoLevel_shaped`, `threeLevel_shaped`) that
is the MMU's translation in the page of a block that its base names, and in no other
(`walkPageTable_agrees_iff`).
-/

namespace HyperCore.AArch64

open RadixTable Bitmap PageAlloc ArchPage TableMap

/-- `__walk_page_table` at level `3 - n`. -/
def walkPageTable (L : Layout) (addr : Nat) : Nat → Nat → HostM Nat
  | 0, curTbl =>
    if curTbl = 0 then pure 0
    else do
      let nextPte ← load L.hostTranslate (curTbl + 8 * pteOffset addr 3)
      if !validBit nextPte then pure 0 else pure (tableBase nextPte)
  | n + 1, curTbl =>
    if curTbl = 0 then pure 0
    else do
      let nextPte ← load L.hostTranslate (curTbl + 8 * pteOffset addr (2 - n))
      if !validBit nextPte then pure 0
      else if !tableBit nextPte then pure (tableBase nextPte)
      else walkPageTable L addr n (L.phyToVir (tableBase nextPte))

/-- `__walk_page_table(..) | (vir & 0xFFF)` -/
def withOffset (vir page : Nat) : Nat := page ||| vir % 4096

/-- `ptw_test` -/
def ptwTest (L : Layout) (tblRoot vir : Nat) : HostM Int := do
  let page ← walkPageTable L vir 3 tblRoot
  let e := L.virToPhy vir
  if withOffset vir page ≠ e then pure (-1) else pure 0

/-- What the MMU makes of `va`, with `vaBits` bits to translate. -/
def hostTranslation (vaBits : Nat) (m : Nat → Word) (root va : Nat) : Option Nat :=
  if va < 2 ^ vaBits then (hostWalk m root va).map Prod.fst else none

/-! ## The trees of the code -/

/-- What the code puts on the path of `va`: links to tables, pages in the tables of level 3, and blocks
above them but not in the root. -/
def Shaped (m : Nat → Word) (va : Nat) : Nat → Nat → Prop
  | table, 0 => validBit (m (table + 8 * mmuIndex va 3)) = true →
      tableBit (m (table + 8 * mmuIndex va 3)) = true
  | table, n + 1 =>
    let d := m (table + 8 * mmuIndex va (2 - n))
    validBit d = true → (tableBit d = true → baseField d ≠ 0 ∧ Shaped m va (tableBase d) n) ∧
      (tableBit d = false → n ≠ 2)

/-- The page or block that the walk of `va` meets, and the number of levels below it. -/
def leafOn (m : Nat → Word) (va : Nat) : Nat → Nat → Option (Word × Nat)
  | table, 0 =>
    let d := m (table + 8 * mmuIndex va 3)
    if validBit d then some (d, 0) else none
  | table, n + 1 =>
    let d := m (table + 8 * mmuIndex va (2 - n))
    if !validBit d then none
    else if tableBit d then leafOn m va (tableBase d) n
    else some (d, n + 1)

/-- Where `__walk_page_table` is right about `va`: the descriptors of the path lie in the direct map, and
a page or block it meets has an address. If the MMU translates `va` this is not 0, and `va` lies in the
page it names; else it is 0. -/
structure Resolves (L : Layout) (vaBits : Nat) (m : Nat → Word) (root va : Nat) : Prop where
  path : ∀ a, a ∈ hostPath m va root 3 → ¬ Past L a
  leaf : ∀ d n, leafOn m va root 3 = some (d, n) →
    if va < 2 ^ vaBits then baseField d ≠ 0 ∧ baseField d % 2 ^ (9 * n) = va / 4096 % 2 ^ (9 * n)
    else baseField d = 0

/-! ## The walk -/

section

variable {L : Layout} {va : Nat} {h : Host}

/-- The hardware's walk ends at that page or block. -/
theorem hostWalkFrom_leafOn {m : Nat → Word} {n : Nat} : ∀ {table}, Shaped m va table n →
    (hostWalkFrom m va table n).map Prod.fst = (leafOn m va table n).map fun (d, k) =>
      tableBase d / 2 ^ (12 + 9 * k) * 2 ^ (12 + 9 * k) + va % 2 ^ (12 + 9 * k) := by
  induction n with
  | zero =>
    intro table hs
    rw [Shaped] at hs
    rw [hostWalkFrom, leafOn]
    cases hv : validBit (m (table + 8 * mmuIndex va 3)) with
    | false => rfl
    | true =>
      have hpage : baseField (m (table + 8 * mmuIndex va 3)) * 4096 / 2 ^ 12 * 2 ^ 12 =
          baseField (m (table + 8 * mmuIndex va 3)) * 4096 := by omega
      simp only [hs hv, Bool.and_self, if_true, Option.map_some, tableBase, Nat.mul_zero, Nat.add_zero,
        hpage]
      rfl
  | succ n ih =>
    intro table hs
    rw [Shaped] at hs
    rw [hostWalkFrom, leafOn]
    cases hv : validBit (m (table + 8 * mmuIndex va (2 - n))) with
    | false => rfl
    | true =>
      obtain ⟨hlink, hblock⟩ := hs hv
      simp only [Bool.not_true, Bool.false_eq_true, if_false]
      cases ht : tableBit (m (table + 8 * mmuIndex va (2 - n))) with
      | true =>
        simp only [if_true]
        exact ih (hlink ht).2
      | false =>
        simp only [Bool.false_eq_true, if_false, hblock ht]
        rfl

/-- What `__walk_page_table` answers: it faults on a descriptor past the direct map, and else gives the
base of the page or block that it meets. -/
theorem walkPageTable_run {n : Nat} : ∀ {table v}, PointsTo L v table → Shaped h.mem va table n →
    (∃ a, a ∈ hostPath h.mem va table n ∧ Past L a) ∧
        walkPageTable L va n v h = .error .fault h ∨
      (¬ ∃ a, a ∈ hostPath h.mem va table n ∧ Past L a) ∧
        walkPageTable L va n v h =
          .ok (((leafOn h.mem va table n).map fun l => tableBase l.1).getD 0) h := by
  induction n with
  | zero =>
    intro table v hp hs
    have hi : mmuIndex va 3 < 512 := Nat.mod_lt _ (by decide)
    rw [walkPageTable, if_neg hp.2.1, hostPath]
    simp only [List.mem_singleton, exists_eq_left]
    rcases hp.2.2 _ hi with ⟨hpast, hdark⟩ | ⟨hno, htr⟩
    · exact .inl ⟨hpast, bind_error (load_dark hdark)⟩
    · refine .inr ⟨hno, ?_⟩
      have hload : load L.hostTranslate (v + 8 * pteOffset va 3) h = .ok _ h := load_reached htr
      rw [bind_ok hload, leafOn]
      cases validBit (h.mem (table + 8 * mmuIndex va 3)) <;> rfl
  | succ n ih =>
    intro table v hp hs
    have hi : mmuIndex va (2 - n) < 512 := Nat.mod_lt _ (by decide)
    rw [Shaped] at hs
    rw [walkPageTable, if_neg hp.2.1, hostPath]
    simp only [List.mem_cons, exists_eq_or_imp]
    rcases hp.2.2 _ hi with ⟨hpast, hdark⟩ | ⟨hno, htr⟩
    · exact .inl ⟨.inl hpast, bind_error (load_dark hdark)⟩
    · have hload : load L.hostTranslate (v + 8 * pteOffset va (2 - n)) h = .ok _ h := load_reached htr
      rw [bind_ok hload, leafOn]
      simp only [hno, false_or]
      cases hv : validBit (h.mem (table + 8 * mmuIndex va (2 - n))) with
      | false =>
        refine .inr ⟨?_, rfl⟩
        rintro ⟨a, ha, -⟩
        cases ha
      | true =>
        obtain ⟨hlink, -⟩ := hs hv
        simp only [Bool.not_true, Bool.false_eq_true, if_false, Bool.true_and]
        cases ht : tableBit (h.mem (table + 8 * mmuIndex va (2 - n))) with
        | true =>
          obtain ⟨hbase, hrest⟩ := hlink ht
          simp only [Bool.not_true, Bool.false_eq_true, if_false, if_true]
          exact ih (pointsTo_phyToVir L hbase) hrest
        | false =>
          refine .inr ⟨?_, rfl⟩
          rintro ⟨a, ha, -⟩
          cases ha

/-- The base of a leaf with the offset in a page, against the leaf with the offset in it. -/
theorem withOffset_eq_iff (va base k : Nat) :
    withOffset va (base * 4096) =
        base * 4096 / 2 ^ (12 + 9 * k) * 2 ^ (12 + 9 * k) + va % 2 ^ (12 + 9 * k) ↔
      base % 2 ^ (9 * k) = va / 4096 % 2 ^ (9 * k) := by
  have hoff : va % 4096 < 2 ^ 12 := Nat.mod_lt _ (by decide)
  have hor : withOffset va (base * 4096) = base * 4096 + va % 4096 := by
    rw [withOffset, Nat.mul_comm base]
    exact (Nat.two_pow_add_eq_or_of_lt hoff base).symm
  obtain ⟨q, hq⟩ : ∃ q, q = 2 ^ (9 * k) := ⟨_, rfl⟩
  have hsize : 2 ^ (12 + 9 * k) = 4096 * q := by
    rw [Nat.pow_add, hq]
  have hdiv : base * 4096 / (4096 * q) * (4096 * q) = base / q * q * 4096 := by
    rw [Nat.mul_comm base, Nat.mul_div_mul_left _ _ (by decide), Nat.mul_comm 4096 q, Nat.mul_assoc]
  have hmod : va % (4096 * q) = va / 4096 % q * 4096 + va % 4096 := by
    rw [Nat.mod_mul, Nat.add_comm, Nat.mul_comm 4096]
  have hbase := Nat.div_add_mod' base q
  rw [hor, hsize, hdiv, hmod, ← hq]
  constructor
  · intro he
    omega
  · intro he
    omega

/-- `__walk_page_table` agrees with the MMU exactly under these conditions. -/
theorem walkPageTable_agrees_iff {v root : Nat} (vaBits : Nat) (hp : PointsTo L v root)
    (hs : Shaped h.mem va root 3) :
    Agrees (withOffset va) h (walkPageTable L va 3 v h) (hostTranslation vaBits h.mem root va) ↔
      Resolves L vaBits h.mem root va := by
  rcases walkPageTable_run hp hs with ⟨⟨a, ha, hpast⟩, hrun⟩ | ⟨hno, hrun⟩
  · rw [hrun]
    exact ⟨fun hag => absurd hag Agrees.not_error, fun hr => absurd hpast (hr.path a ha)⟩
  · have hpath : ∀ a, a ∈ hostPath h.mem va root 3 → ¬ Past L a := fun a ha hpast => hno ⟨a, ha, hpast⟩
    have hiff : Resolves L vaBits h.mem root va ↔ ∀ d n, leafOn h.mem va root 3 = some (d, n) →
        if va < 2 ^ vaBits then baseField d ≠ 0 ∧ baseField d % 2 ^ (9 * n) = va / 4096 % 2 ^ (9 * n)
        else baseField d = 0 := ⟨fun hr => hr.leaf, fun hl => ⟨hpath, hl⟩⟩
    have hmmu : hostTranslation vaBits h.mem root va =
        if va < 2 ^ vaBits then (leafOn h.mem va root 3).map fun (d, k) =>
          tableBase d / 2 ^ (12 + 9 * k) * 2 ^ (12 + 9 * k) + va % 2 ^ (12 + 9 * k) else none := by
      rw [hostTranslation, hostWalk, hostWalkFrom_leafOn hs]
    rw [hrun, agrees_ok, hiff, hmmu]
    cases hl : leafOn h.mem va root 3 with
    | none =>
      simp only [Option.map_none, Option.getD_none, ite_self, if_true, reduceCtorEq, false_implies,
        implies_true]
    | some l =>
      obtain ⟨d, k⟩ := l
      have hoff := eq_comm.trans (withOffset_eq_iff va (baseField d) k)
      rw [← tableBase] at hoff
      have hzero : tableBase d = 0 ↔ baseField d = 0 := by
        rw [tableBase, Nat.mul_eq_zero, or_iff_left (by decide)]
      have hleaf {P : Word → Nat → Prop} : (∀ d' n, some (d, k) = some (d', n) → P d' n) ↔ P d k :=
        ⟨fun hall => hall d k rfl, fun hone _ _ he => by cases he; exact hone⟩
      rw [hleaf]
      simp only [Option.map_some, Option.getD_some, hzero]
      rcases Nat.lt_or_ge va (2 ^ vaBits) with hin | hout
      · simp only [if_pos hin, reduceCtorEq, Option.some.injEq, hoff, if_false_left, ne_eq]
      · simp only [if_neg (Nat.not_lt.mpr hout), reduceCtorEq, if_true_left, imp_false, not_not]

end

/-- Where the walk agrees, `ptw_test` compares the translation of the MMU with `vir_to_phy`. -/
theorem ptwTest_run {v pa : Nat}
    (hag : Agrees (withOffset va) h (walkPageTable L va 3 v h) (some pa)) :
    ptwTest L v va h = .ok (if pa = L.virToPhy va then 0 else -1) h := by
  obtain ⟨page, -, hrun, rfl⟩ := hag
  rw [ptwTest, bind_ok hrun]
  simp only [ne_eq, ite_not]
  split <;> rfl

/-- A block above the last level is what the walk meets. -/
theorem leafOn_of_blockAbove {m : Nat → Word} {va t k n : Nat} : ∀ {table},
    blockAbove m va table n = some (t, k) →
      leafOn m va table n = some (m (t + 8 * mmuIndex va (3 - k)), k) := by
  induction n with
  | zero => exact fun hl => (by cases hl)
  | succ n ih =>
    intro table hl
    rw [blockAbove] at hl
    rw [leafOn]
    split at hl
    · cases hl
    · next hv =>
      rw [Bool.not_eq_true, Bool.not_eq_false'] at hv
      rw [validBit_of_pteIsValid hv]
      split at hl
      · next ht =>
        simp only [ht, Bool.not_true, Bool.false_eq_true, if_false, if_true]
        exact ih hl
      · next ht =>
        cases hl
        have hlevel : 3 - (n + 1) = 2 - n := by omega
        simp only [ht, hlevel, Bool.not_true, Bool.false_eq_true, if_false]

/-! ## The trees have that shape -/

section

variable {L : Layout} {m m' : Nat → Word} {va table n : Nat} {h : Host}

theorem shaped_clear (hd : m (table + 8 * mmuIndex va (3 - n)) = 0) : Shaped m va table n := by
  have hdead : validBit (m (table + 8 * mmuIndex va (3 - n))) = false := by
    rw [hd]
    exact validBit_zero
  cases n with
  | zero => exact fun hv => (by cases hdead.symm.trans hv)
  | succ n =>
    have hlevel : 3 - (n + 1) = 2 - n := by omega
    rw [hlevel] at hdead
    exact fun hv => (by cases hdead.symm.trans hv)

theorem shaped_link {t attr : Nat} (hpos : 0 < t) (ht : t % 4096 = 0) (hlt : t < 2 ^ 48)
    (hd : m (table + 8 * mmuIndex va (2 - n)) = makeStage1Entry t attr) (hs : Shaped m va t n) :
    Shaped m va table (n + 1) := by
  have hbase := tableBase_make1 attr ht hlt
  have hne : baseField (makeStage1Entry t attr) ≠ 0 := fun h0 => by
    rw [tableBase, h0] at hbase
    omega
  rw [Shaped]
  simp only [hd, tableBit_make1, hbase]
  exact fun _ => ⟨fun _ => ⟨hne, hs⟩, fun hb => (by cases hb)⟩

/-- The shape depends on the path only. -/
theorem Shaped.frame (hs : Shaped m va table n) (hm : ∀ a, a ∈ hostPath m va table n → m' a = m a) :
    Shaped m' va table n := by
  induction n generalizing table with
  | zero =>
    rw [Shaped, hm _ List.mem_cons_self]
    exact hs
  | succ n ih =>
    have hsame : m' (table + 8 * mmuIndex va (2 - n)) = m (table + 8 * mmuIndex va (2 - n)) :=
      hm _ List.mem_cons_self
    rw [Shaped] at hs ⊢
    rw [hsame]
    intro hv
    obtain ⟨hlink, hblock⟩ := hs hv
    refine ⟨fun ht => ?_, hblock⟩
    obtain ⟨hne, hbelow⟩ := hlink ht
    refine ⟨hne, ih hbelow fun a ha => hm a ?_⟩
    rw [hostPath, hv, ht]
    exact List.mem_cons_of_mem _ ha

/-- Trees of pages. -/
theorem HostBuilt.shaped {root : Nat} (hr : BootPgtable L root) (hb : HostBuilt L root h) (va : Nat) :
    Shaped h.mem va root 3 := by
  have hi := hb.inv hr 0
  suffices hall : ∀ n k b, k + n = 3 →
      tableAt (hostMapper L 0).format (Plain 0 h).mem root (hostIndex va) k = some b →
        Shaped h.mem va b n from hall 3 0 root rfl rfl
  intro n
  induction n with
  | zero =>
    intro k b hk hb hv
    obtain rfl : k = 3 := hk
    have hseen : (Plain 0 h).mem (slot b (hostIndex va 3)) =
        hostView 0 none (slot b (hostIndex va 3)) (h.mem (b + 8 * mmuIndex va 3)) := rfl
    have hfilled : filled ((Plain 0 h).mem (slot b (hostIndex va 3))) = some () := by
      refine if_neg fun h0 => ?_
      have hdead := validBit_hostView 0 none (slot b (hostIndex va 3)) (h.mem (b + 8 * mmuIndex va 3))
      rw [← hseen, h0, hv] at hdead
      cases hdead
    have hpage := hi.pages (hostIndex va) (by rw [lookup, hb, Option.bind_some, hfilled]; rfl)
    rw [lookup, hb, Option.bind_some, hseen, hostPage_hostView, hostPage, hv] at hpage
    cases ht : tableBit (h.mem (b + 8 * mmuIndex va 3)) with
    | true => rfl
    | false =>
      rw [ht] at hpage
      cases hpage
  | succ n ih =>
    intro k b hk hb
    have hkd : k < 3 := by omega
    have hlevel : 3 - (n + 1) = k := by omega
    have hseen : (Plain 0 h).mem (slot b (hostIndex va k)) =
        hostView 0 none (slot b (hostIndex va k)) (h.mem (b + 8 * mmuIndex va k)) := rfl
    rw [Shaped, show 2 - n = k by omega]
    intro hv
    rcases hi.tables.tree.entry hkd hb (hostIndex va k) with he | he
    · have hdead := validBit_hostView 0 none (slot b (hostIndex va k)) (h.mem (b + 8 * mmuIndex va k))
      rw [← hseen, he, hv] at hdead
      cases hdead
    · obtain ⟨c, hc⟩ := Option.isSome_iff_exists.mp he
      have hform := (hostMapper L 0).eq_entry hc
      obtain ⟨hvalid, -, hbase⟩ := (hostMapper L 0).of_next hc
      have hbit : tableBit (h.mem (b + 8 * mmuIndex va k)) = true := by
        rw [← tableBit_hostView 0 none (slot b (hostIndex va k)), ← hseen, hform]
        exact tableBit_make1 c 0
      have hbase : tableBase (h.mem (b + 8 * mmuIndex va k)) = c := by
        rw [← tableBase_hostView 0 none (slot b (hostIndex va k)), ← hseen]
        exact hbase
      have hvalid : pteIsValid (h.mem (b + 8 * mmuIndex va k)) = true := by
        rw [← pteIsValid_hostView 0 none (slot b (hostIndex va k)), ← hseen]
        exact hvalid
      rw [pteIsValid, Bool.and_eq_true, bne_iff_ne] at hvalid
      refine ⟨fun _ => ⟨hvalid.2, ?_⟩, fun hblock => (by cases hbit.symm.trans hblock)⟩
      rw [hbase]
      exact ih (k + 1) c (by omega) ((tableAt_succ hb).trans hc)

/-- The words of a new table: clear, and read by no walk from `t0`. -/
def NewWord (m : Nat → Word) (t0 a : Nat) : Prop := m a = 0 ∧ ∀ va, a ∉ hostPath m va t0 3

/-- The tree that a boot builder extends: it has the shape, reads its root at level 0 only, and the tables
to come are new. -/
structure Extends (m : Nat → Word) (t0 t1 t2 : Nat) : Prop where
  shaped : ∀ va, Shaped m va t0 3
  root : ∀ va i, i < 512 → t0 + 8 * i ∈ hostPath m va t0 3 → i = mmuIndex va 0
  first : ∀ i, i < 512 → NewWord m t0 (t1 + 8 * i)
  second : ∀ i, i < 512 → NewWord m t0 (t2 + 8 * i)

/-- Clear tables of a builder. -/
theorem Extends.of_clear {t0 t1 t2 t3 k : Nat} (hb : BootTables t0 t1 t2 t3 k)
    (hz : ∀ t, t = t0 ∨ t = t1 ∨ t = t2 → ∀ i, i < 512 → m (t + 8 * i) = 0) : Extends m t0 t1 t2 := by
  obtain ⟨ha0, ha1, ha2, -⟩ := hb.aligned
  obtain ⟨h01, h02, -⟩ := hb.apart
  have hi (va : Nat) : mmuIndex va 0 < 512 := Nat.mod_lt _ (by decide)
  have hroot (va : Nat) : m (t0 + 8 * mmuIndex va 0) = 0 := hz t0 (.inl rfl) _ (hi va)
  have hpath (va a : Nat) (ha : a ∈ hostPath m va t0 3) : a = t0 + 8 * mmuIndex va 0 := by
    rw [hostPath] at ha
    simp only [Nat.sub_self, hroot, validBit_zero, Bool.false_and, Bool.false_eq_true, if_false,
      List.mem_singleton] at ha
    exact ha
  refine ⟨fun va => shaped_clear (hroot va), fun va i _ ha => ?_, fun i hi₁ => ⟨hz t1 ?_ i hi₁, fun va ha => ?_⟩,
    fun i hi₂ => ⟨hz t2 ?_ i hi₂, fun va ha => ?_⟩⟩
  · have := hpath va _ ha
    omega
  · exact .inr (.inl rfl)
  · have := hpath va _ ha
    have := hi va
    omega
  · exact .inr (.inr rfl)
  · have := hpath va _ ha
    have := hi va
    omega

/-- The tree after a builder linked the tables of levels 1 and 2. -/
theorem shaped_top {t0 t1 t2 t3 k attr : Nat} {r : BootRange} (hb : BootTables t0 t1 t2 t3 k)
    (h1 : 0 < t1) (h2 : 0 < t2) (hold : ∀ va, Shaped m va t0 3)
    (hl0 : m' (t0 + 8 * mmuIndex r.virt 0) = makeStage1Entry t1 attr)
    (hl1 : m' (t1 + 8 * mmuIndex r.virt 1) = makeStage1Entry t2 attr)
    (hclear : ∀ i, i < 512 → i ≠ mmuIndex r.virt 1 → m' (t1 + 8 * i) = 0)
    (hframe : ∀ va, mmuIndex va 0 ≠ mmuIndex r.virt 0 → ∀ a, a ∈ hostPath m va t0 3 → m' a = m a)
    (hlow : ∀ va, Shaped m' va t2 1) (va : Nat) : Shaped m' va t0 3 := by
  obtain ⟨-, ha1, ha2, -⟩ := hb.aligned
  obtain ⟨-, hlt1, hlt2, -⟩ := hb.below
  simp only [pageVirtOffset] at hlt1 hlt2
  have hsecond : Shaped m' va t1 2 := by
    rcases Nat.decEq (mmuIndex va 1) (mmuIndex r.virt 1) with hne | he
    · exact shaped_clear (hclear _ (Nat.mod_lt _ (by decide)) hne)
    · exact shaped_link (n := 1) h2 ha2 (by omega) (he ▸ hl1) (hlow va)
  rcases Nat.decEq (mmuIndex va 0) (mmuIndex r.virt 0) with hne | he
  · exact (hold va).frame (hframe va hne)
  · exact shaped_link (n := 2) h1 ha1 (by omega) (he ▸ hl0) hsecond

/-- The two-level builder keeps the shape. -/
theorem twoLevel_shaped {t0 t1 t2 t3 k attr : Nat} {r : BootRange} (hb : BootTables t0 t1 t2 t3 k)
    (hr : r.Blocks) (h1 : 0 < t1) (h2 : 0 < t2) (hx : Extends m t0 t1 t2)
    (hrun : buildHypTwoLevelPageTable L r.virt r.phys r.size attr t0 t1 t2 m = some m') (va : Nat) :
    Shaped m' va t0 3 := by
  obtain ⟨m'', hrun', he0, he1, he2, hoff⟩ := twoLevel_entries L m attr hb hr
  obtain rfl : m'' = m' := Option.some.inj (hrun'.symm.trans hrun)
  obtain ⟨ha0, ha1, ha2, -⟩ := hb.aligned
  obtain ⟨h01, h02, h12⟩ := hb.apart
  have hi0 : mmuIndex r.virt 0 < 512 := Nat.mod_lt _ (by decide)
  have hi1 : mmuIndex r.virt 1 < 512 := Nat.mod_lt _ (by decide)
  refine shaped_top hb h1 h2 hx.shaped he0 he1 (fun i hi hne => ?_) (fun va hne a ha => ?_)
    (fun va => ?_) va
  · rw [hoff, (hx.first i hi).1]
    rintro (he | he | ⟨j, hj, he⟩)
    · omega
    · omega
    · have := hj.lt
      omega
  · refine hoff a ?_
    rintro (rfl | rfl | ⟨j, hj, rfl⟩)
    · exact hne (hx.root va _ hi0 ha).symm
    · exact (hx.first _ hi1).2 va ha
    · exact (hx.second j (hj.lt)).2 va ha
  · have hi2 : mmuIndex va 2 < 512 := Nat.mod_lt _ (by decide)
    by_cases ht : r.Touches (mmuIndex va 2)
    · obtain ⟨j, hj, he⟩ := (touches_iff r _).mp ht
      have hblock := he2 j hj
      rw [← he] at hblock
      have hbit : tableBit (m'' (t2 + 8 * mmuIndex va 2)) = false := by rw [hblock, tableBit_block]
      exact fun _ => ⟨fun hlink => absurd (hbit.symm.trans hlink) Bool.false_ne_true, fun _ => by decide⟩
    · refine shaped_clear (n := 1) ?_
      show m'' (t2 + 8 * mmuIndex va 2) = 0
      rw [hoff, (hx.second _ hi2).1]
      rintro (he | he | ⟨j, hj, he⟩)
      · omega
      · omega
      · exact ht ((show mmuIndex va 2 = j by omega) ▸ hj)

/-- And so does the three-level builder, on new tables of level 3. -/
theorem threeLevel_shaped {t0 t1 t2 t3 k attr : Nat} {r : BootRange} (hb : BootTables t0 t1 t2 t3 k)
    (hfit : r.first + r.pages ≤ 512 * k) (h1 : 0 < t1) (h2 : 0 < t2) (h3 : 0 < t3)
    (hx : Extends m t0 t1 t2) (hnew : ∀ j, j < 512 * k → NewWord m t0 (t3 + 8 * j)) (va : Nat) :
    Shaped (buildHypThreeLevelPageTable L r.virt r.phys r.size attr t0 t1 t2 t3 m) va t0 3 := by
  obtain ⟨he0, he1, he2, he3, hoff⟩ := threeLevel_entries L m attr hb hfit rfl
  generalize buildHypThreeLevelPageTable L r.virt r.phys r.size attr t0 t1 t2 t3 m = m' at *
  obtain ⟨ha0, ha1, ha2, ha3⟩ := hb.aligned
  obtain ⟨h01, h02, h12⟩ := hb.apart
  have hout0 := hb.outside t0 (.inl rfl)
  have hout1 := hb.outside t1 (.inr (.inl rfl))
  have hout2 := hb.outside t2 (.inr (.inr rfl))
  have hbelow := hb.below.2.2.2
  have hva := r.virt_aligned
  have hsa := r.size_aligned
  have hsize := r.size_pos
  have hi0 : mmuIndex r.virt 0 < 512 := Nat.mod_lt _ (by decide)
  have hi1 : mmuIndex r.virt 1 < 512 := Nat.mod_lt _ (by decide)
  refine shaped_top hb h1 h2 hx.shaped he0 he1 (fun i hi hne => ?_) (fun va hne a ha => ?_)
    (fun va => ?_) va
  · rw [hoff, (hx.first i hi).1]
    rintro (he | he | ⟨j, hj, he⟩ | ⟨j, -, hj, he⟩)
    · omega
    · omega
    · have := hj.lt
      omega
    · omega
  · refine hoff a ?_
    rintro (rfl | rfl | ⟨j, hj, rfl⟩ | ⟨j, -, hj, rfl⟩)
    · exact hne (hx.root va _ hi0 ha).symm
    · exact (hx.first _ hi1).2 va ha
    · exact (hx.second j (hj.lt)).2 va ha
    · exact (hnew j (by omega)).2 va ha
  · have hi2 : mmuIndex va 2 < 512 := Nat.mod_lt _ (by decide)
    have hi3 : mmuIndex va 3 < 512 := Nat.mod_lt _ (by decide)
    by_cases ht : r.Touches (mmuIndex va 2)
    · obtain ⟨j, hj, he⟩ := (touches_iff r _).mp ht
      have hlink := he2 j hj
      rw [← he] at hlink
      have hjk : j < k := by
        simp only [BootRange.lastSlot] at hj
        simp only [BootRange.first, BootRange.pages, mmuIndex] at hfit
        omega
      refine shaped_link (n := 0) (by omega) (by omega)
        (by simp only [pageVirtOffset] at hbelow; omega) hlink ?_
      have hplace : t3 + 4096 * j + 8 * mmuIndex va 3 = t3 + 8 * (512 * j + mmuIndex va 3) := by omega
      by_cases hin : r.first ≤ 512 * j + mmuIndex va 3 ∧ 512 * j + mmuIndex va 3 < r.first + r.pages
      · have hpage := he3 (512 * j + mmuIndex va 3 - r.first) (by omega)
        have hslot : r.first + (512 * j + mmuIndex va 3 - r.first) = 512 * j + mmuIndex va 3 := by omega
        rw [hslot, ← hplace] at hpage
        intro _
        rw [hpage, tableBit_make1]
      · refine shaped_clear (n := 0) ?_
        show m' (t3 + 4096 * j + 8 * mmuIndex va 3) = 0
        rw [hplace, hoff, (hnew _ (by omega)).1]
        rintro (he | he | ⟨i, hi, he⟩ | ⟨i, hge, hi, he⟩)
        · omega
        · omega
        · have := hi.lt
          omega
        · exact hin (by omega)
    · refine shaped_clear (n := 1) ?_
      show m' (t2 + 8 * mmuIndex va 2) = 0
      rw [hoff, (hx.second _ hi2).1]
      rintro (he | he | ⟨j, hj, he⟩ | ⟨j, -, hj, he⟩)
      · omega
      · omega
      · exact ht ((show mmuIndex va 2 = j by omega) ▸ hj)
      · omega

end

end HyperCore.AArch64
