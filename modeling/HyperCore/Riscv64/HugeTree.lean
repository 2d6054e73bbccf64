import HyperCore.Riscv64.HugeMap

/-!
# Trees with 4 KB and 2 MB leaves

`HugeBuilt` are the trees that rounds of `pg_map` and `pg_map_huge` make of an empty root. Down to
level 2 they are trees of tables; an entry of level 2 is clear, a leaf, or the link of a taken page that
is no table above (`Mixed`). Nothing more holds: a 4 KB map that meets a leaf stores its own entry in
the table of level 2.
-/

namespace HyperCore.Riscv64

open RadixTable Bitmap PageAlloc ArchPage TableMap

variable {L : Layout} {withoutMmu : Bool} {root va pa : Nat} {attr : BitVec 32}
variable {h h' : Host} {idx : Nat → Fin 512}

/-! ## The invariant -/

/-- A leaf that `write_pte` can have written. -/
def LeafWord (w : Word) : Prop := ∃ pa attr, HasAccess attr ∧ w = (leafEntry pa attr).bits

/-- A link to a taken page of the pool that is no table of the levels above. -/
def LinkWord (L : Layout) (root : Nat) (h : Host) (w : Word) : Prop :=
  ∃ p, p < 2 ^ 19 ∧ w = (makePgEntry (L.physPage p)).bits ∧ bit h.bitmap p = true ∧
    ∀ idx k, k ≤ 2 → tableAt (pgMapper L false).format h.mem root idx k ≠ some (L.physPage p)

/-- The invariant: tables down to level 2, and leaves or links in the tables there. -/
structure Mixed (L : Layout) (root : Nat) (h : Host) : Prop where
  tables : Tables (pgMapper L false) root 2 h
  entry : ∀ idx w, lookup (pgMapper L false).format content h.mem root 2 idx = some w →
    LeafWord w ∨ LinkWord L root h w

theorem content_zero : content 0 = none := if_pos rfl

theorem leafWord_leaf (hacc : HasAccess attr) : LeafWord (leafEntry pa attr).bits := ⟨pa, attr, hacc, rfl⟩

theorem Mixed.of_clear (hr : StaticRoot L root) (hz : ∀ i : Fin 512, h.mem (slot root i) = 0) :
    Mixed L root h := by
  refine ⟨Tables.of_clear hz hr.aligned fun _ he => absurd he (hr.ne_page _), fun idx w hw => ?_⟩
  rw [lookup_of_clear hz content_zero] at hw
  cases hw

/-- The tree after one entry of level 2 was written. -/
theorem Mixed.stored {c : Nat} (hm : Mixed L root h)
    (hst : Stores (pgMapper L false).format h.mem h'.mem root 2 idx c)
    (hbits : ∀ n, bit h.bitmap n = true → bit h'.bitmap n = true)
    (hword : LeafWord (h'.mem (slot c (idx 2))) ∨
      ∃ p, p < 2 ^ 19 ∧ h'.mem (slot c (idx 2)) = (makePgEntry (L.physPage p)).bits ∧
        bit h'.bitmap p = true ∧
        ∀ idx k, k ≤ 2 → tableAt (pgMapper L false).format h.mem root idx k ≠ some (L.physPage p)) :
    Mixed L root h' := by
  have htab : ∀ {idx' k}, k ≤ 2 → tableAt (pgMapper L false).format h'.mem root idx' k =
      tableAt (pgMapper L false).format h.mem root idx' k := fun hk => hst.tableAt_eq hm.tables.tree hk
  have hlink {w : Word} {p : Nat} (hp : p < 2 ^ 19) (hw : w = (makePgEntry (L.physPage p)).bits)
      (hset : bit h'.bitmap p = true)
      (hno : ∀ idx k, k ≤ 2 →
        tableAt (pgMapper L false).format h.mem root idx k ≠ some (L.physPage p)) :
      LinkWord L root h' w :=
    ⟨p, hp, hw, hset, fun idx' k hk => by rw [htab hk]; exact hno idx' k hk⟩
  refine ⟨⟨hst.tree hm.tables.tree, fun h0 hk hb => ?_, fun hp he => ?_⟩, fun idx' w hw => ?_⟩
  · rw [htab hk] at hb
    obtain ⟨p, hp, he, hset⟩ := hm.tables.owned h0 hk hb
    exact ⟨p, hp, he, hbits p hset⟩
  · exact hbits _ (hm.tables.root_taken hp he)
  · rw [hst.lookup_eq hm.tables.tree] at hw
    split at hw
    · obtain ⟨rfl, -⟩ := content_eq_some.mp hw
      rcases hword with hleaf | ⟨p, hp, he, hset, hno⟩
      · exact .inl hleaf
      · exact .inr (hlink hp he hset hno)
    · rcases hm.entry idx' w hw with hleaf | ⟨p, hp, he, hset, hno⟩
      · exact .inl hleaf
      · exact .inr (hlink hp he (hbits p hset) hno)

/-- Page `p` is a table of the tree. -/
def InTree (L : Layout) (root : Nat) (h : Host) (p : Nat) : Prop :=
  (∃ idx k, k ≤ 2 ∧ tableAt (pgMapper L false).format h.mem root idx k = some (L.physPage p)) ∨
    ∃ idx, lookup (pgMapper L false).format content h.mem root 2 idx =
      some (makePgEntry (L.physPage p)).bits

/-- The tree after writes outside its tables. -/
theorem Mixed.same (hm : Mixed L root h)
    (hs : SameOn (pgMapper L false).format h.mem h'.mem root 2)
    (hbits : ∀ p, InTree L root h p → bit h.bitmap p = true → bit h'.bitmap p = true) :
    Mixed L root h' := by
  refine ⟨⟨hs.tree hm.tables.tree, fun {idx' k b} h0 hk hb => ?_, fun hp he => ?_⟩, fun idx' w hw => ?_⟩
  · rw [hs.tableAt_eq hk] at hb
    obtain ⟨p, hp, he, hset⟩ := hm.tables.owned h0 hk hb
    exact ⟨p, hp, he, hbits p (.inl ⟨idx', k, hk, he ▸ hb⟩) hset⟩
  · have hroot : InTree L root h _ := .inl ⟨fun _ => 0, 0, Nat.zero_le 2, congrArg some he⟩
    exact hbits _ hroot (hm.tables.root_taken hp he)
  · rw [hs.lookup_eq] at hw
    rcases hm.entry idx' w hw with hleaf | ⟨p, hp, he, hset, hno⟩
    · exact .inl hleaf
    · refine .inr ⟨p, hp, he, hbits p (.inr ⟨idx', he ▸ hw⟩) hset, fun idx'' k hk => ?_⟩
      rw [hs.tableAt_eq hk]
      exact hno idx'' k hk

/-- The tree after the descent linked tables above level 2. -/
theorem Mixed.grown {S : (Nat → Fin 512) → Nat → Prop} {n : Nat} (hm : Mixed L root h)
    (hg : Grown (pgMapper L withoutMmu) root 2 S n h h')
    (hw : SameWalks (pgMapper L withoutMmu) root 2 h h') : Mixed L root h' := by
  refine ⟨⟨hg.tables.tree, hg.tables.owned, hg.tables.root_taken⟩, fun idx' w hl => ?_⟩
  have hold : lookup (pgMapper L false).format content h.mem root 2 idx' = some w :=
    (hw content content_zero idx').symm.trans hl
  rcases hm.entry idx' w hold with hleaf | ⟨p, hp, he, hset, hno⟩
  · exact .inl hleaf
  · refine .inr ⟨p, hp, he, hg.bit_mono hset, fun idx'' k hk hb => ?_⟩
    rcases hg.low hk hb with hb | ⟨q, -, hq, hfree⟩
    · exact hno idx'' k hk hb
    · -- a new table was free, and `p` was not
      rw [← L.physPage_inj hq, hset] at hfree
      cases hfree

/-! ## The descent to level 2 -/

theorem evenFree_half {n : Nat} {bm : Bitmap} (hn : n ≤ evenFree bm (2 ^ 18)) :
    n ≤ evenFree bm (2 ^ 19) := Nat.le_trans hn (evenFree_mono (by decide))

/-- A call that returns found its tables in reach and had pages for those it lacked. -/
theorem descend_then {β : Type} {f : Nat → HostM β} {r : β} (hr : StaticRoot L root)
    (ht : Tables (pgMapper L false) root 2 h)
    (hroom : missing (pgMapper L false) root h idx 2 ≤ evenFree h.bitmap (2 ^ 18))
    (hf : ∀ t h₁, (∀ i : Fin 512, (pgMapper L withoutMmu).tr (t + 8 * i) = none) → Fails (f t h₁))
    (hrun : ((pgMapper L withoutMmu).descend root idx 2 >>= f) h = .ok r h') :
    ∃ t c h₁, tableAt (pgMapper L false).format h₁.mem root idx 2 = some c ∧
      (pgMapper L withoutMmu).At t c ∧
      Grown (pgMapper L withoutMmu) root 2 (fun idx' j => j ≤ 2 ∧ AgreeTo j idx' idx)
        (missing (pgMapper L false) root h idx 2) h h₁ ∧
      SameWalks (pgMapper L withoutMmu) root 2 h h₁ ∧ f t h₁ = .ok r h' := by
  have htm : Tables (pgMapper L withoutMmu) root 2 h := ⟨ht.tree, ht.owned, ht.root_taken⟩
  have hgood : Sees (pgMapper L withoutMmu) root 2 h idx ∧
      missing (pgMapper L false) root h idx 2 ≤ evenFree h.bitmap (pgMapper L withoutMmu).half := by
    cases withoutMmu with
    | true => exact ⟨fun _ _ _ _ _ _ => rfl, hroom⟩
    | false =>
      have hreach : Reached (pgMapper L false) root 2 h idx := by
        refine Classical.byContradiction fun hno => ?_
        exact (descend_bind_fails ht (hr.at_root false) (pgMapper_blindHigh L) hno
          fun t => hf t h).not_ok hrun
      refine ⟨hreach.sees, Nat.le_of_not_lt fun hlow => ?_⟩
      have hspoiled := descend_spoiled ht (hr.at_root false) hreach.sees
        (show h.log = [] ++ h.log from rfl) (Nat.le_refl 2) hlow (evenFree_half hroom)
      exact ((hspoiled.fails (pgMapper_faultsHigh L)).bind f).not_ok hrun
  obtain ⟨h₁, t, c, hdesc, hc, hat, hg, hw⟩ := descend_good htm (hr.at_root withoutMmu) hgood.1
    (Nat.le_refl 2) hgood.2
  rw [bind_ok hdesc] at hrun
  exact ⟨t, c, h₁, hc, hat, hg, hw, hrun⟩

/-! ## The entry of level 2 -/

theorem nextTable_leaf {t c : Nat} {w : Word} (hat : (pgMapper L withoutMmu).At t c)
    (hw : h.mem (slot c (idx 2)) = w) (hleaf : LeafWord w) :
    (pgMapper L withoutMmu).nextTable t (idx 2) h = .ok t h := by
  obtain ⟨pa, attr, hacc, rfl⟩ := hleaf
  have hv : (pgMapper L withoutMmu).valid (h.mem (slot c (idx 2))) = true := by
    rw [hw]
    exact pteIsValid_leaf pa attr
  have hs : (pgMapper L withoutMmu).stop (h.mem (slot c (idx 2))) = true := by
    show isLeaf (h.mem (slot c (idx 2))) = true
    rw [hw]
    exact isLeaf_leaf hacc
  rw [Mapper.nextTable, bind_ok (load_at hat _ h)]
  simp only [hv, ↓reduceIte]
  rw [bind_ok (load_at hat _ h)]
  simp only [hs, ↓reduceIte]
  rfl

theorem nextTable_linked {t c p : Nat} (hat : (pgMapper L withoutMmu).At t c) (hp : p < 2 ^ 19)
    (hw : h.mem (slot c (idx 2)) = (makePgEntry (L.physPage p)).bits) :
    (pgMapper L withoutMmu).nextTable t (idx 2) h =
      .ok ((pgMapper L withoutMmu).tableAddr (L.physPage p)) h := by
  obtain ⟨hv, hs, hb⟩ := (pgMapper L withoutMmu).entry_link (show p < 2 ^ 20 by omega)
  have he : h.mem (slot c (idx 2)) = (pgMapper L withoutMmu).entry (L.physPage p) := hw
  rw [← he] at hv hs hb
  rw [Mapper.nextTable, bind_ok (load_at hat _ h)]
  simp only [hv, ↓reduceIte]
  rw [bind_ok (load_at hat _ h)]
  simp only [hs, hb, Bool.false_eq_true, ↓reduceIte]
  rfl

/-- A page of the pool is reached where its entries are: an access that succeeds is exact. -/
theorem store_in_page {p : Nat} {w : Word} (hp : p < 2 ^ 19) (i : Fin 512)
    (hrun : storeLeaf (pgMapper L withoutMmu).tr
      ((pgMapper L withoutMmu).tableAddr (L.physPage p) + 8 * i) w h = .ok () h') :
    h'.mem = setMem h.mem (slot (L.physPage p) i) w ∧ h'.bitmap = h.bitmap := by
  have hlow : p < 2 * (pgMapper L withoutMmu).half := by
    refine Nat.lt_of_not_le fun hge => ?_
    cases withoutMmu with
    | true =>
      simp only [pgMapper_half, pgHalf, if_true] at hge
      omega
    | false =>
      have hdark := pgMapper_blindHigh L p hge (Nat.lt_trans hp (by decide)) i
      rw [storeLeaf_dark hdark] at hrun
      cases hrun
  exact storeLeaf_ok ((pgMapper L withoutMmu).tr_table hlow i) hrun

/-- A page that is no table has its words outside the tables. -/
theorem sameOn_page {p : Nat} {m' : Nat → Word} (ht : Tables (pgMapper L false) root 2 h)
    (hno : ∀ idx k, k ≤ 2 → tableAt (pgMapper L false).format h.mem root idx k ≠ some (L.physPage p))
    (i : Fin 512) (w : Word) (hm' : m' = setMem h.mem (slot (L.physPage p) i) w) :
    SameOn (pgMapper L false).format h.mem m' root 2 := by
  intro idx' k b hk hb j
  rw [hm']
  refine if_neg fun he => hno idx' k hk ?_
  rw [← (slot_inj (ht.tree.aligned hk hb) (L.physPage_mod p) he).1]
  exact hb

/-- The tree after a free page was cleared, linked at level 2 and given a leaf. -/
theorem Mixed.linked {c p : Nat} {w : Word} (hm : Mixed L root h)
    (hc : tableAt (pgMapper L false).format h.mem root idx 2 = some c) (hp : p < 2 ^ 19)
    (hfree : bit h.bitmap p = false) (i : Fin 512)
    (hmem : h'.mem = setMem (setMem (zeroMem h.mem (L.physPage p)) (slot c (idx 2))
      (makePgEntry (L.physPage p)).bits) (slot (L.physPage p) i) w)
    (hbits : ∀ n, bit h.bitmap n = true → bit h'.bitmap n = true) (hset : bit h'.bitmap p = true) :
    Mixed L root h' := by
  have hno : ∀ idx k, k ≤ 2 →
      tableAt (pgMapper L false).format h.mem root idx k ≠ some (L.physPage p) :=
    fun _ _ hk => hm.tables.fresh (Nat.lt_trans hp (by decide)) hfree hk
  have hca := hm.tables.tree.aligned (Nat.le_refl 2) hc
  have hpa := L.physPage_mod p
  have haway {b : Nat} (hb : b ≠ L.physPage p) (hba : b % 4096 = 0) (j : Fin 512) :
      slot b j ≠ slot (L.physPage p) i ∧
        ¬ (L.physPage p ≤ slot b j ∧ slot b j < L.physPage p + 4096) := by
    have hj := j.isLt
    refine ⟨fun he => hb (slot_inj hba hpa he).1, fun hin => hb ?_⟩
    simp only [slot] at hin
    omega
  have hcp : c ≠ L.physPage p := fun he => hno idx 2 (Nat.le_refl 2) (he ▸ hc)
  have hst : Stores (pgMapper L false).format h.mem h'.mem root 2 idx c := by
    refine ⟨hc, ?_⟩
    intro idx' k b hk hb j hor
    have hba := hm.tables.tree.aligned hk hb
    obtain ⟨h1, h2⟩ := haway (fun he => hno idx' k hk (he ▸ hb)) hba j
    have hne : slot b j ≠ slot c (idx 2) := fun he => by
      obtain ⟨hbc, hji⟩ := slot_inj hba hca he
      exact hor.elim (fun hb => hb hbc) fun hj => hj hji
    rw [hmem, setMem, if_neg h1, setMem, if_neg hne, zeroMem, if_neg h2]
  have hword : h'.mem (slot c (idx 2)) = (makePgEntry (L.physPage p)).bits := by
    rw [hmem, setMem, if_neg (haway hcp hca (idx 2)).1, setMem, if_pos rfl]
  exact hm.stored hst hbits (.inr ⟨p, hp, hword, hset, hno⟩)

theorem linkTable_fails {M : Mapper L} (hfault : M.FaultsHigh) (hlow : evenFree h.bitmap M.half = 0)
    (hsome : 0 < evenFree h.bitmap (2 ^ 19)) (a : Nat) : Fails (M.linkTable a h) :=
  have hlog : h.log = [] ++ h.log := rfl
  (linkTable_spoiled hlog hlow hsome a).fails hfault

/-- Without a page in reach the link faults. -/
theorem nextTable_dark {t c : Nat} (hat : (pgMapper L withoutMmu).At t c)
    (h0 : h.mem (slot c (idx 2)) = 0) (hroom : 0 < evenFree h.bitmap (2 ^ 18))
    (hlow : evenFree h.bitmap (pgMapper L withoutMmu).half = 0) :
    Fails ((pgMapper L withoutMmu).nextTable t (idx 2) h) := by
  cases withoutMmu with
  | true =>
    simp only [pgMapper_half, pgHalf, if_true] at hlow
    omega
  | false =>
    have hv : (pgMapper L false).valid (h.mem (slot c (idx 2))) = false := by
      rw [h0]
      exact pteIsValid_zero
    have hsome : 0 < evenFree h.bitmap (2 ^ 19) :=
      Nat.lt_of_lt_of_le hroom (evenFree_mono (by decide))
    have hfails := linkTable_fails (pgMapper_faultsHigh L) hlow hsome (t + 8 * idx 2)
    rw [Mapper.nextTable, bind_ok (load_at hat _ h)]
    simp only [hv, Bool.false_eq_true, ↓reduceIte]
    exact hfails.bind _

/-- The last two steps of a 4 KB map, from the table of level 2. -/
theorem Mixed.lastLevel {t c : Nat} (hm : Mixed L root h) (hat : (pgMapper L withoutMmu).At t c)
    (hc : tableAt (pgMapper L false).format h.mem root idx 2 = some c) (hacc : HasAccess attr)
    (hroom : h.mem (slot c (idx 2)) = 0 → 0 < evenFree h.bitmap (2 ^ 18))
    (hrun : ((pgMapper L withoutMmu).nextTable t (idx 2) >>= fun t' =>
      storeLeaf (pgMapper L withoutMmu).tr (t' + 8 * idx 3) (leafEntry pa attr).bits) h = .ok () h') :
    Mixed L root h' := by
  by_cases h0 : h.mem (slot c (idx 2)) = 0
  · rcases Nat.eq_zero_or_pos (evenFree h.bitmap (pgMapper L withoutMmu).half) with hlow | hpos
    · exact absurd hrun ((nextTable_dark hat h0 (hroom h0) hlow).bind _).not_ok
    · obtain ⟨p, hp, hrun₁, halloc⟩ := allocOnePage_low
        (Nat.le_trans (pgMapper L withoutMmu).half_le (by decide)) hpos
      have hp19 : p < 2 ^ 19 := by
        have := (pgMapper L withoutMmu).half_le
        omega
      have hfree := (freeRun_one.mp hrun₁.1).2.2
      have hv : (pgMapper L withoutMmu).valid (h.mem (slot c (idx 2))) = false := by
        rw [h0]
        exact pteIsValid_zero
      have htakes := linkHost_takes (M := pgMapper L withoutMmu) (a := slot c (idx 2)) hp hfree
      rw [bind_ok (nextTable_link hat hv hp halloc)] at hrun
      obtain ⟨hmem, hbits⟩ := storeLeaf_ok ((pgMapper L withoutMmu).tr_table hp (idx 3)) hrun
      refine hm.linked hc hp19 hfree (idx 3) hmem (fun n hn => ?_) ?_
      · rw [hbits]
        exact (htakes.bits n).mpr (.inl hn)
      · rw [hbits]
        exact (htakes.bits p).mpr (.inr (List.mem_cons_of_mem _ (List.mem_singleton.mpr rfl)))
  · have hentry := hm.entry idx (h.mem (slot c (idx 2))) (by
      rw [lookup, hc]
      exact content_eq_some.mpr ⟨rfl, h0⟩)
    rcases hentry with hleaf | ⟨p, hp, hw, hset, hno⟩
    · -- the entry goes into the table of level 2, at the index of level 3
      rw [bind_ok (nextTable_leaf hat rfl hleaf)] at hrun
      obtain ⟨idx', hidx'⟩ : ∃ idx' : Nat → Fin 512, idx' = fun k => if k = 2 then idx 3 else idx k :=
        ⟨_, rfl⟩
      have hat3 : idx' 2 = idx 3 := by rw [hidx']; rfl
      have hag : AgreeTo 2 idx idx' := by
        intro k hk
        rw [hidx']
        exact (if_neg (Nat.ne_of_lt hk)).symm
      have hc' : tableAt (pgMapper L withoutMmu).format h.mem root idx' 2 = some c :=
        (tableAt_congr hag).symm.trans hc
      have htab : Tables (pgMapper L withoutMmu) root 2 h :=
        ⟨hm.tables.tree, hm.tables.owned, hm.tables.root_taken⟩
      obtain ⟨h₂, hrun₂, -, hword, hst, hg⟩ := storeLeaf_stores htab hat hc' (leafEntry pa attr).bits
      rw [← hat3] at hrun
      obtain rfl : h₂ = h' := (EStateM.Result.ok.inj (hrun₂.symm.trans hrun)).2
      exact hm.stored hst (fun n => hg.bit_mono) (.inl (hword ▸ leafWord_leaf hacc))
    · rw [bind_ok (nextTable_linked hat hp hw)] at hrun
      obtain ⟨hmem, hbits⟩ := store_in_page hp (idx 3) hrun
      exact hm.same (sameOn_page hm.tables hno _ _ hmem) fun n _ => by rw [hbits]; exact id

/-! ## The trees -/

/-- The tables that a 2 MB map at `va` still lacks. -/
def hugeNeeded (L : Layout) (root : Nat) (h : Host) (va : Nat) : Nat :=
  missing (pgMapper L false) root h (pgIndex 0 va) 2

/-- The tables that a 4 KB map at `va` still lacks. -/
def pageNeeded (L : Layout) (root : Nat) (h : Host) (va : Nat) : Nat :=
  hugeNeeded L root h va +
    if (lookup (pgMapper L false).format content h.mem root 2 (pgIndex 0 va)).isNone then 1 else 0

theorem mapPage_three (M : Mapper L) (e : Word) :
    M.mapPage root 3 idx e = M.descend root idx 2 >>= fun t =>
      M.nextTable t (idx 2) >>= fun t' => storeLeaf M.tr (t' + 8 * idx 3) e := by
  simp only [Mapper.mapPage, Mapper.descend, bind_assoc]

theorem nextTable_fails {M : Mapper L} {t : Nat} {i : Fin 512}
    (hdark : ∀ i : Fin 512, M.tr (t + 8 * i) = none) {α β : Type} (f : Nat → HostM α)
    (g : α → HostM β) : Fails (((M.nextTable t i >>= f) >>= g) h) :=
  (((load_fails (hdark i)).bind _).bind f).bind g

/-- A round of `pg_map_huge` keeps the invariant. -/
theorem Mixed.block {r : Int} (hr : StaticRoot L root) (hm : Mixed L root h) (hacc : HasAccess attr)
    (hroom : hugeNeeded L root h va ≤ evenFree h.bitmap (2 ^ 18))
    (hrun : pgMap2MB L withoutMmu root 0 va pa attr h = .ok r h') : Mixed L root h' := by
  rw [pgMap2MB_eq, Mapper.mapPage, bind_assoc] at hrun
  obtain ⟨t, c, h₁, hc, hat, hg, hw, hstore⟩ := descend_then hr hm.tables hroom
    (fun t h₁ hdark => Fails.bind ⟨.fault, h₁, storeLeaf_dark (hdark (pgIndex 0 va 2))⟩ _) hrun
  obtain ⟨h₂, hrun₂, -, hword, hst, hg₂⟩ := storeLeaf_stores hg.tables hat hc (leafEntry pa attr).bits
  rw [bind_ok hrun₂] at hstore
  obtain rfl : h₂ = h' := (EStateM.Result.ok.inj hstore).2
  exact (hm.grown hg hw).stored hst (fun n => hg₂.bit_mono) (.inl (hword ▸ leafWord_leaf hacc))

/-- A round of `pg_map` keeps the invariant. -/
theorem Mixed.page {r : Int} (hr : StaticRoot L root) (hm : Mixed L root h) (hacc : HasAccess attr)
    (hroom : pageNeeded L root h va ≤ evenFree h.bitmap (2 ^ 18))
    (hrun : pgMap4k L withoutMmu root 0 va pa attr h = .ok r h') : Mixed L root h' := by
  have hroom₁ : hugeNeeded L root h va ≤ evenFree h.bitmap (2 ^ 18) :=
    Nat.le_trans (Nat.le_add_right _ _) hroom
  rw [pgMap4k_eq L withoutMmu root va pa attr (Nat.zero_le 3), mapPage_three, bind_assoc] at hrun
  obtain ⟨t, c, h₁, hc, hat, hg, hw, hlast⟩ := descend_then hr hm.tables hroom₁
    (fun t h₁ hdark => nextTable_fails hdark _ _) hrun
  obtain ⟨u, h₂, hstore, hret⟩ := bind_eq_ok hlast
  obtain rfl : h₂ = h' := (EStateM.Result.ok.inj hret).2
  refine (hm.grown hg hw).lastLevel hat hc hacc (fun h0 => ?_) hstore
  -- the entry was clear before the descent too, so a page was set aside for it
  have hnone₁ : lookup (pgMapper L false).format content h₁.mem root 2 (pgIndex 0 va) = none := by
    rw [lookup, hc, Option.bind_some, h0, content_zero]
  have hnone : lookup (pgMapper L false).format content h.mem root 2 (pgIndex 0 va) = none :=
    (hw content content_zero (pgIndex 0 va)).symm.trans hnone₁
  have hcount := hg.count (pgMapper L withoutMmu).half_le
  rw [pageNeeded, hnone] at hroom
  simp only [Option.isNone_none, if_true, hugeNeeded] at hroom
  omega

/-- What the rest of the hypervisor may do to a tree: nothing. The words down to level 2 keep their
values and its pages stay taken. -/
structure LeftAlone (L : Layout) (root : Nat) (h h' : Host) : Prop where
  words : SameOn (pgMapper L false).format h.mem h'.mem root 2
  pages : ∀ p, InTree L root h p → bit h.bitmap p = true → bit h'.bitmap p = true

/-- The trees at a static root: an empty root, then rounds of `pg_map` and `pg_map_huge` in any order and
with either value of `without_mmu`, whose tables are pages below `2 ^ 19`, with other code running in
between. -/
inductive HugeBuilt (L : Layout) (root : Nat) : Host → Prop
  | empty {h : Host} : (∀ i : Fin 512, h.mem (slot root i) = 0) → HugeBuilt L root h
  | page {h h' : Host} {withoutMmu : Bool} {va pa : Nat} {attr : BitVec 32} {r : Int} :
      HugeBuilt L root h → HasAccess attr → pageNeeded L root h va ≤ evenFree h.bitmap (2 ^ 18) →
      pgMap4k L withoutMmu root 0 va pa attr h = .ok r h' → HugeBuilt L root h'
  | block {h h' : Host} {withoutMmu : Bool} {va pa : Nat} {attr : BitVec 32} {r : Int} :
      HugeBuilt L root h → HasAccess attr → hugeNeeded L root h va ≤ evenFree h.bitmap (2 ^ 18) →
      pgMap2MB L withoutMmu root 0 va pa attr h = .ok r h' → HugeBuilt L root h'
  | other {h h' : Host} : HugeBuilt L root h → LeftAlone L root h h' → HugeBuilt L root h'

namespace HugeBuilt

theorem mixed (hb : HugeBuilt L root h) (hr : StaticRoot L root) : Mixed L root h := by
  induction hb with
  | empty hz => exact Mixed.of_clear hr hz
  | page _ hacc hroom hrun ih => exact ih.page hr hacc hroom hrun
  | block _ hacc hroom hrun ih => exact ih.block hr hacc hroom hrun
  | other _ ho ih => exact ih.same ho.words ho.pages

/-- Rounds that keep the tree built do so together. -/
theorem rounds {body : Nat → HostM Unit} {n : Nat} (hb : HugeBuilt L root h)
    (hstep : ∀ i, i < n → ∀ h₁ h₂, forRounds body i h = .ok () h₁ → HugeBuilt L root h₁ →
      body i h₁ = .ok () h₂ → HugeBuilt L root h₂)
    (hrun : forRounds body n h = .ok () h') : HugeBuilt L root h' := by
  induction n generalizing h' with
  | zero =>
    cases hrun
    exact hb
  | succ n ih =>
    rw [forRounds] at hrun
    obtain ⟨_, h₁, hrun₁, hlast⟩ := bind_eq_ok hrun
    have hb₁ := ih (fun i hi => hstep i (Nat.lt_succ_of_lt hi)) hrun₁
    exact hstep n (Nat.lt_succ_self n) h₁ h' hrun₁ hb₁ hlast

/-- The rounds of `pg_map`. -/
def pageRound (L : Layout) (withoutMmu : Bool) (root vaddr paddr : Nat) (attr : BitVec 32) (i : Nat) :
    HostM Unit := do
  let _ ← pgMap4k L withoutMmu root 0 ((vaddr + pageSize * i) % 2 ^ 64) ((paddr + pageSize * i) % 2 ^ 64)
    attr
  pure ()

/-- The rounds of `pg_map_huge`. -/
def blockRound (L : Layout) (withoutMmu : Bool) (root vaddr paddr : Nat) (attr : BitVec 32) (i : Nat) :
    HostM Unit := do
  let _ ← pgMap2MB L withoutMmu root 0 ((vaddr / 2 ^ 21 * 2 ^ 21 + 2 ^ 21 * i) % 2 ^ 64)
    ((paddr / 2 ^ 21 * 2 ^ 21 + 2 ^ 21 * i) % 2 ^ 64) attr
  pure ()

/-- A call of `pg_map` builds, where each round has pages for its tables. -/
theorem pgMap {vaddr paddr mapSize : Nat} (hb : HugeBuilt L root h) (hacc : HasAccess attr)
    (hroom : ∀ i, i < pageCount mapSize → ∀ h₁,
      forRounds (pageRound L withoutMmu root vaddr paddr attr) i h = .ok () h₁ →
        pageNeeded L root h₁ ((vaddr + pageSize * i) % 2 ^ 64) ≤ evenFree h₁.bitmap (2 ^ 18))
    (hrun : Riscv64.pgMap L withoutMmu root 0 vaddr paddr mapSize attr h = .ok () h') :
    HugeBuilt L root h' := by
  refine hb.rounds ?_ hrun
  intro i hi h₁ h₂ hprev hb₁ hround
  obtain ⟨r, h₃, hpage, hret⟩ := bind_eq_ok hround
  obtain rfl : h₃ = h₂ := (EStateM.Result.ok.inj hret).2
  exact hb₁.page hacc (hroom i hi h₁ hprev) hpage

/-- And so does a call of `pg_map_huge`. -/
theorem pgMapHuge {vaddr paddr mapSize : Nat} (hb : HugeBuilt L root h) (hacc : HasAccess attr)
    (hroom : ∀ i, i < hugeCount mapSize → ∀ h₁,
      forRounds (blockRound L withoutMmu root vaddr paddr attr) i h = .ok () h₁ →
        hugeNeeded L root h₁ ((vaddr / 2 ^ 21 * 2 ^ 21 + 2 ^ 21 * i) % 2 ^ 64) ≤
          evenFree h₁.bitmap (2 ^ 18))
    (hrun : Riscv64.pgMapHuge L withoutMmu root 0 vaddr paddr mapSize attr h = .ok () h') :
    HugeBuilt L root h' := by
  refine hb.rounds ?_ hrun
  intro i hi h₁ h₂ hprev hb₁ hround
  obtain ⟨r, h₃, hblock, hret⟩ := bind_eq_ok hround
  obtain rfl : h₃ = h₂ := (EStateM.Result.ok.inj hret).2
  exact hb₁.block hacc (hroom i hi h₁ hprev) hblock

end HugeBuilt

end HyperCore.Riscv64
