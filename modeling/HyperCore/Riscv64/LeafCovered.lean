import HyperCore.Core.HarmlessMap
import HyperCore.Riscv64.HugeTree

/-!
# `pg_map_4k` under a 2 MB leaf

`pg_next_level` does not leave the table of a leaf, and `__pg_map` then writes its entry there at the index
of the last level. In the trees that `pg_map` and `pg_map_huge` build that is the leaf itself, or the
entry of another 2 MB (`pgMap4k_covered`). So there is no damage only where the call faults on a table out
of reach, or writes what is there (`pgMap4k_harmless_iff`).
-/

namespace HyperCore.Riscv64

open RadixTable Bitmap PageAlloc ArchPage TableMap

/-- The table with the leaf above the last level that the walk of `va` meets, and the number of levels
below it. -/
def leafAbove (m : Nat → Word) (va : Nat) : Nat → Nat → Option (Nat × Nat)
  | _, 0 => none
  | table, n + 1 =>
    let pte := m (table + 8 * vpn va (n + 1))
    if !pteIsValid pte then none
    else if isLeaf pte then some (table, n + 1)
    else leafAbove m va (tableBase pte) n

/-- The addresses of the entries that the walk of `va` reads. -/
def walkPath (m : Nat → Word) (va : Nat) : Nat → Nat → List Nat
  | table, 0 => [table + 8 * vpn va 0]
  | table, n + 1 =>
    let pte := m (table + 8 * vpn va (n + 1))
    (table + 8 * vpn va (n + 1)) ::
      if pteIsValid pte && !isLeaf pte then walkPath m va (tableBase pte) n else []

section

variable {L : Layout} {withoutMmu : Bool} {root va pa t n : Nat} {attr : BitVec 32} {h : Host}

/-- The walk through a link. -/
theorem leafAbove_link {m : Nat → Word} {c : Nat} (hc : c % 4096 = 0) (hlt : c < 2 ^ 56)
    (hd : m (t + 8 * vpn va (n + 1)) = (makePgEntry c).bits) :
    leafAbove m va t (n + 1) = leafAbove m va c n ∧
      walkPath m va t (n + 1) = (t + 8 * vpn va (n + 1)) :: walkPath m va c n := by
  have hbase := tableBase_link hc hlt
  rw [leafAbove, walkPath, hd, hbase, pteIsValid_link, isLeaf_link]
  exact ⟨rfl, rfl⟩

/-- What a covered address says about a tree: two levels of links above a 2 MB leaf. -/
structure Covered (L : Layout) (root : Nat) (h : Host) (va t1 t2 : Nat) : Prop where
  first : tableAt (pgMapper L false).format h.mem root (pgIndex 0 va) 1 = some t1
  second : tableAt (pgMapper L false).format h.mem root (pgIndex 0 va) 2 = some t2
  leaf : LeafWord (h.mem (slot t2 (pgIndex 0 va 2)))
  path : walkPath h.mem va root 3 =
    [slot root (pgIndex 0 va 0), slot t1 (pgIndex 0 va 1), slot t2 (pgIndex 0 va 2)]

/-- A table of the tree on the path of `va`, with levels below it. -/
theorem leafAbove_table (va : Nat) {k b : Nat} (ht : Tables (pgMapper L false) root 2 h) (hk : k + n = 2)
    (hkd : k < 2) (hb : tableAt (pgMapper L false).format h.mem root (pgIndex 0 va) k = some b) :
    (tableAt (pgMapper L false).format h.mem root (pgIndex 0 va) (k + 1) = none ∧
        leafAbove h.mem va b (n + 1) = none) ∨
      ∃ c, tableAt (pgMapper L false).format h.mem root (pgIndex 0 va) (k + 1) = some c ∧
        leafAbove h.mem va b (n + 1) = leafAbove h.mem va c n ∧
        walkPath h.mem va b (n + 1) = slot b (pgIndex 0 va k) :: walkPath h.mem va c n := by
  have haddr : b + 8 * vpn va (n + 1) = slot b (pgIndex 0 va k) := by
    rw [slot_pgIndex, show 3 - k = n + 1 by omega]
  have hnext := tableAt_succ hb
  rcases ht.tree.entry hkd hb (pgIndex 0 va k) with he | he
  · rw [he, Format.next_clear] at hnext
    refine .inl ⟨hnext, ?_⟩
    rw [leafAbove, haddr, he]
    rfl
  · obtain ⟨c, hc⟩ := Option.isSome_iff_exists.mp he
    rw [hc] at hnext
    obtain ⟨p, hp, rfl, -⟩ := ht.owned (Nat.succ_pos k) hkd hnext
    have hplt := L.physPage_lt (show p < 2 ^ 20 by omega)
    have hform : h.mem (b + 8 * vpn va (n + 1)) = (makePgEntry (L.physPage p)).bits :=
      haddr ▸ (pgMapper L false).eq_entry hc
    obtain ⟨hleaf, hpath⟩ := leafAbove_link (L.physPage_mod p) (by omega) hform
    exact .inr ⟨_, hnext, hleaf, haddr ▸ hpath⟩

/-- Leaves above the last level are 2 MB leaves. -/
theorem covered_of_leafAbove (hm : Mixed L root h) (hl : leafAbove h.mem va root 3 = some (t, n)) :
    n = 1 ∧ ∃ t1, Covered L root h va t1 t := by
  rcases leafAbove_table va (n := 2) (k := 0) hm.tables rfl (by decide) rfl with
    ⟨-, hnone⟩ | ⟨t1, h1, hl1, hp1⟩
  · exact nomatch hnone.symm.trans hl
  · rcases leafAbove_table va (n := 1) (k := 1) hm.tables rfl (by decide) h1 with
      ⟨-, hnone⟩ | ⟨t2, h2, hl2, hp2⟩
    · exact nomatch hnone.symm.trans (hl1.symm.trans hl)
    · have hlast : leafAbove h.mem va t2 1 = some (t, n) := hl2.symm.trans (hl1.symm.trans hl)
      have haddr : t2 + 8 * vpn va 1 = slot t2 (pgIndex 0 va 2) := (slot_pgIndex t2 va 2).symm
      rw [leafAbove, haddr] at hlast
      by_cases hv : pteIsValid (h.mem (slot t2 (pgIndex 0 va 2))) = true
      · have hne : h.mem (slot t2 (pgIndex 0 va 2)) ≠ 0 := fun h0 => by
          rw [h0, pteIsValid_zero] at hv
          cases hv
        have hlook : lookup (pgMapper L false).format content h.mem root 2 (pgIndex 0 va) =
            some (h.mem (slot t2 (pgIndex 0 va 2))) := by
          rw [lookup, h2]
          exact content_eq_some.mpr ⟨rfl, hne⟩
        rcases hm.entry _ _ hlook with hleaf | ⟨p, hp, hw, -⟩
        · have hleaf' := hleaf
          obtain ⟨pa, attr, hacc, hw⟩ := hleaf'
          simp only [hw, pteIsValid_leaf, isLeaf_leaf hacc, Bool.not_true, Bool.false_eq_true, if_false,
            if_true] at hlast
          obtain ⟨rfl, rfl⟩ := Prod.mk.inj (Option.some.inj hlast)
          refine ⟨rfl, t1, h1, h2, hleaf, ?_⟩
          have hp3 : walkPath h.mem va t2 1 = [slot t2 (pgIndex 0 va 2)] := by
            rw [walkPath, haddr, hw, pteIsValid_leaf, isLeaf_leaf hacc]
            rfl
          rw [hp1, hp2, hp3]
        · simp only [hw, pteIsValid_link, isLeaf_link, Bool.not_true, Bool.false_eq_true, if_false,
            leafAbove] at hlast
          cases hlast
      · simp only [hv, Bool.not_false, if_true] at hlast
        cases hlast

/-- A leaf of level 2 is met. -/
theorem leafAbove_of_leaf (hm : Mixed L root h)
    (h2 : tableAt (pgMapper L false).format h.mem root (pgIndex 0 va) 2 = some t)
    (hleaf : LeafWord (h.mem (slot t (pgIndex 0 va 2)))) : leafAbove h.mem va root 3 = some (t, 1) := by
  obtain ⟨t1, h1, -⟩ := tableAt_prefix h2
  rcases leafAbove_table va (n := 2) (k := 0) hm.tables rfl (by decide) rfl with
    ⟨hnone, -⟩ | ⟨c, hc, hl1, -⟩
  · exact nomatch hnone.symm.trans h1
  · rcases leafAbove_table va (n := 1) (k := 1) hm.tables rfl (by decide) hc with
      ⟨hnone, -⟩ | ⟨d, hd, hl2, -⟩
    · exact nomatch hnone.symm.trans h2
    · obtain rfl : d = t := Option.some.inj (hd.symm.trans h2)
      obtain ⟨pa, attr, hacc, hw⟩ := hleaf
      have haddr : d + 8 * vpn va 1 = slot d (pgIndex 0 va 2) := (slot_pgIndex d va 2).symm
      rw [hl1, hl2, leafAbove, haddr]
      simp only [hw, pteIsValid_leaf, isLeaf_leaf hacc, Bool.not_true, Bool.false_eq_true, if_false,
        if_true]

/-! ### The call -/

theorem past_slot {c : Nat} (hc : c % 4096 = 0) (i : Fin 512) : Past L (slot c i) ↔ Past L c := by
  have hoff := L.pagePhysOffset_mod
  have hi := i.isLt
  simp only [Past, slot, directMappingSize]
  omega

/-- The condition under which a table of the path is out of reach. -/
theorem past_path {t1 t2 : Nat} (hr : StaticRoot L root) (hm : Mixed L root h)
    (hc : Covered L root h va t1 t2) :
    (∃ a, a ∈ walkPath h.mem va root 3 ∧ Past L a) ↔ Past L t1 ∨ Past L t2 := by
  have h1 := past_slot (L := L) (hm.tables.tree.aligned (show 1 ≤ 2 by decide) hc.first) (pgIndex 0 va 1)
  have h2 := past_slot (L := L) (hm.tables.tree.aligned (Nat.le_refl 2) hc.second) (pgIndex 0 va 2)
  have hroot : ¬ Past L (slot root (pgIndex 0 va 0)) := by
    have hi := (pgIndex 0 va 0).isLt
    have hin := hr.inside
    have hend := L.hyperEnd_lt
    simp only [Past, slot]
    omega
  rw [hc.path]
  constructor
  · rintro ⟨a, ha, hpast⟩
    rcases List.mem_cons.mp ha with rfl | ha
    · exact absurd hpast hroot
    · rcases List.mem_cons.mp ha with rfl | ha
      · exact .inl (h1.mp hpast)
      · obtain rfl := List.mem_singleton.mp ha
        exact .inr (h2.mp hpast)
  · rintro (hpast | hpast)
    · exact ⟨_, List.mem_cons_of_mem _ List.mem_cons_self, h1.mpr hpast⟩
    · exact ⟨_, List.mem_cons_of_mem _ (List.mem_cons_of_mem _ List.mem_cons_self), h2.mpr hpast⟩

theorem past_page {p : Nat} : Past L (L.physPage p) ↔ 2 ^ 18 ≤ p := by
  simp only [Past, Layout.physPage, directMappingSize, pageSize]
  omega

/-- A table is reached, or it lies past the direct map and the MMU is on. -/
theorem table_at {k b : Nat} {idx : Nat → Fin 512} (withoutMmu : Bool) (hm : Mixed L root h) (h0 : 0 < k)
    (hk : k ≤ 2) (hb : tableAt (pgMapper L false).format h.mem root idx k = some b) :
    ¬ (withoutMmu = false ∧ Past L b) ∧
        (pgMapper L withoutMmu).At ((pgMapper L withoutMmu).tableAddr b) b ∨
      (withoutMmu = false ∧ Past L b) ∧
        ∀ i : Fin 512, (pgMapper L withoutMmu).tr ((pgMapper L withoutMmu).tableAddr b + 8 * i) = none := by
  obtain ⟨p, hp, rfl, -⟩ := hm.tables.owned h0 hk hb
  rw [past_page]
  cases withoutMmu with
  | true => exact .inl ⟨fun hc => Bool.noConfusion hc.1, fun i => rfl⟩
  | false =>
    rcases Nat.lt_or_ge p (2 ^ 18) with hlt | hge
    · refine .inl ⟨fun hc => absurd hc.2 (Nat.not_le.mpr hlt), (pgMapper L false).tr_table ?_⟩
      rw [two_mul_half]
      exact hlt
    · refine .inr ⟨⟨rfl, hge⟩, pgMapper_blindHigh L p ?_ (Nat.lt_trans hp (by decide))⟩
      rw [two_mul_half]
      exact hge

/-- Under a leaf, `pg_map_4k` faults on a table out of reach, or writes its entry into the table that
holds the leaf. -/
theorem pgMap4k_covered {t1 t2 : Nat} (withoutMmu : Bool) (pa : Nat) (attr : BitVec 32)
    (hr : StaticRoot L root) (hm : Mixed L root h) (hc : Covered L root h va t1 t2) :
    (withoutMmu = false ∧ (Past L t1 ∨ Past L t2)) ∧
        pgMap4k L withoutMmu root 0 va pa attr h = .error .fault h ∨
      ¬ (withoutMmu = false ∧ (Past L t1 ∨ Past L t2)) ∧
        ∃ h', pgMap4k L withoutMmu root 0 va pa attr h = .ok 0 h' ∧
          h'.mem = setMem h.mem (slot t2 (pgIndex 0 va 3)) (leafEntry pa attr).bits ∧
          h'.bitmap = h.bitmap := by
  have hfirst (j c : Nat) (h0 : 0 < j) (hj : j < 2)
      (hjc : tableAt (pgMapper L withoutMmu).format h.mem root (pgIndex 0 va) j = some c) :
      (pgMapper L withoutMmu).At ((pgMapper L withoutMmu).tableAddr c) c ∨
        ∀ i : Fin 512, (pgMapper L withoutMmu).tr ((pgMapper L withoutMmu).tableAddr c + 8 * i) = none :=
    (table_at withoutMmu hm h0 (Nat.le_of_lt hj) hjc).imp And.right And.right
  have hsecond : tableAt (pgMapper L withoutMmu).format h.mem root (pgIndex 0 va) 2 = some t2 := hc.second
  have hptr : (pgMapper L withoutMmu).pointer root 2 t2 = (pgMapper L withoutMmu).tableAddr t2 :=
    if_neg (by decide)
  rw [pgMap4k_eq L withoutMmu root va pa attr (Nat.zero_le 3), mapPage_three, bind_assoc]
  rcases descend_quiet (hr.at_root withoutMmu) hfirst hsecond with
    ⟨hrun, hsee⟩ | ⟨hrun, j, c, h0, hj, hjc, hdark⟩
  · have hno1 : ¬ (withoutMmu = false ∧ Past L t1) := by
      rcases table_at withoutMmu hm Nat.one_pos (show 1 ≤ 2 by decide) hc.first with hat | ⟨-, hdark⟩
      · exact hat.1
      · have hat := hsee 1 t1 Nat.one_pos (by decide) hc.first 0
        cases (hdark 0).symm.trans hat
    rw [bind_ok hrun, hptr, bind_assoc]
    rcases table_at withoutMmu hm (show 0 < 2 by decide) (Nat.le_refl 2) hc.second with
      ⟨hno2, hat⟩ | ⟨hpast, hdark⟩
    · refine .inr ⟨fun ⟨hb, hor⟩ => hor.elim (fun hp => hno1 ⟨hb, hp⟩) fun hp => hno2 ⟨hb, hp⟩, ?_⟩
      rw [bind_ok (nextTable_leaf hat rfl hc.leaf)]
      obtain ⟨h', hstore, hmem, hbits⟩ :=
        storeLeaf_reached (h := h) (leafEntry pa attr).bits (hat (pgIndex 0 va 3))
      exact ⟨h', bind_ok hstore, hmem, hbits⟩
    · refine .inl ⟨⟨hpast.1, .inr hpast.2⟩, ?_⟩
      exact bind_error (bind_error (load_dark (hdark (pgIndex 0 va 2))))
  · refine .inl ⟨?_, bind_error hrun⟩
    have hj1 : j = 1 := by omega
    subst hj1
    obtain rfl : t1 = c := Option.some.inj (hc.first.symm.trans hjc)
    rcases table_at withoutMmu hm Nat.one_pos (show 1 ≤ 2 by decide) hc.first with ⟨-, hat⟩ | ⟨hpast, -⟩
    · cases (hdark 0).symm.trans (hat 0)
    · exact ⟨hpast.1, .inl hpast.2⟩

/-! ### The damage -/

/-- The word of a leaf, from its flags and its page number. -/
def leafWordOf (f : PteFlags) (base : Nat) : Word :=
  BitVec.ofNat 64 (1 + 2 * f.read.toNat + 2 ^ 2 * f.write.toNat + 2 ^ 3 * f.exec.toNat +
    2 ^ 4 * f.user.toNat + 2 ^ 6 + 2 ^ 7 + 2 ^ 10 * (base % 2 ^ 44))

theorem leafEntry_bits (pa : Nat) (attr : BitVec 32) :
    (leafEntry pa attr).bits = leafWordOf (requested attr) (pa / 2 ^ 12) := by
  rw [leafWordOf, leafEntry, requested]
  cases attrRead attr <;> cases attrWrite attr <;> cases attrExec attr <;> cases attrUser attr <;> rfl

/-- The page a leaf names. -/
def leafPage (pa : Nat) : Nat := pa / 2 ^ 12 % 2 ^ 44 * 4096

theorem leafPage_eq (hpa : pa % 4096 = 0) (hlt : pa < 2 ^ 56) : leafPage pa = pa := by
  simp only [leafPage]
  omega

theorem leafEntry_leafPage (pa : Nat) (attr : BitVec 32) :
    (leafEntry (leafPage pa) attr).bits = (leafEntry pa attr).bits := by
  have hbase : leafPage pa / 2 ^ 12 % 2 ^ 44 = pa / 2 ^ 12 % 2 ^ 44 := by
    simp only [leafPage]
    omega
  rw [leafEntry_bits, leafEntry_bits, leafWordOf, leafWordOf, hbase]

/-- The walk of an address in a block of level 2. -/
theorem sv48Walk_block {m : Nat → Word} (ht : Tree (pgMapper L false).format m root 2)
    (hb : tableAt (pgMapper L false).format m root (pgIndex 0 va) 2 = some t) (hacc : HasAccess attr)
    (hd : m (slot t (pgIndex 0 va 2)) = (leafEntry pa attr).bits) :
    sv48Walk m root va =
      if leafPage pa % 2 ^ 21 = 0 then some (leafPage pa + va % 2 ^ 21, requested attr) else none := by
  have hword : m (t + 8 * vpn va 1) = (leafEntry (leafPage pa) attr).bits := by
    rw [leafEntry_leafPage, ← hd, slot_pgIndex]
  have hlt : leafPage pa < 2 ^ 56 := by
    simp only [leafPage]
    omega
  have hal : leafPage pa % 4096 = 0 := by
    simp only [leafPage]
    omega
  rw [sv48Walk_two ht, hb, Option.bind_some, sv48WalkFrom_huge hacc hlt hal hword]

/-- Rewriting the leaf itself maps the page alone only if nothing changes. -/
theorem leaf_rewritten {t1 : Nat} {m' : Nat → Word} (hm : Mixed L root h)
    (hc : Covered L root h va t1 t) (hva : va < 2 ^ 48) (hpa : pa % 4096 = 0) (hlt : pa < 2 ^ 56)
    (hacc : HasAccess attr) (hst : Stores (pgMapper L false).format h.mem m' root 2 (pgIndex 0 va) t)
    (hnew : m' (slot t (pgIndex 0 va 2)) = (leafEntry pa attr).bits)
    (hmaps : MapsOnly (fun m => sv48Walk m root) va pa (requested attr) h.mem m') :
    h.mem (slot t (pgIndex 0 va 2)) = (leafEntry pa attr).bits := by
  obtain ⟨pa₀, attr₀, hacc₀, hold⟩ := hc.leaf
  have htree := hst.tree hm.tables.tree
  have htab : ∀ {idx' : Nat → Fin 512}, tableAt (pgMapper L false).format m' root idx' 2 =
      tableAt (pgMapper L false).format h.mem root idx' 2 := hst.tableAt_eq hm.tables.tree (Nat.le_refl 2)
  -- both walks of an address in the same 2 MB
  have hwalks (va' : Nat) (hva' : va' < 2 ^ 48) (hblock : va' / 2 ^ 21 = va / 2 ^ 21) :
      sv48Walk m' root va' =
          (if leafPage pa % 2 ^ 21 = 0 then some (leafPage pa + va' % 2 ^ 21, requested attr) else none) ∧
        sv48Walk h.mem root va' =
          if leafPage pa₀ % 2 ^ 21 = 0 then some (leafPage pa₀ + va' % 2 ^ 21, requested attr₀)
          else none := by
    have hag := (agree_block hva' hva).mpr hblock
    have hsecond : tableAt (pgMapper L false).format h.mem root (pgIndex 0 va') 2 = some t :=
      (tableAt_congr (hag.mono (Nat.le_succ 2))).trans hc.second
    have hidx : pgIndex 0 va' 2 = pgIndex 0 va 2 := hag 2 (by decide)
    exact ⟨sv48Walk_block htree (htab.trans hsecond) hacc (hidx ▸ hnew),
      sv48Walk_block hm.tables.tree hsecond hacc₀ (hidx ▸ hold)⟩
  have hpage := leafPage_eq hpa hlt
  -- the page of `va` starts its block
  have hfirst := hmaps.page 0 (by decide)
  have hfirst' := (hwalks (va / 4096 * 4096 + 0) (by omega) (by omega)).1
  have hmap := hfirst'.symm.trans hfirst
  rw [hpage] at hmap
  split at hmap
  · next hal =>
    have hzero := congrArg Prod.fst (Option.some.inj hmap)
    dsimp only at hzero
    -- so the next page is in the same block
    have hnext := hmaps.others (va / 4096 * 4096 + 4096) (by omega) (by omega)
    obtain ⟨hn', hn⟩ := hwalks (va / 4096 * 4096 + 4096) (by omega) (by omega)
    have hboth := hn'.symm.trans (hnext.trans hn)
    rw [hpage] at hboth
    rw [if_pos hal] at hboth
    split at hboth
    · obtain ⟨haddr, hflags⟩ := Prod.mk.inj (Option.some.inj hboth)
      have hsame : leafPage pa₀ = pa := by omega
      rw [hold, ← leafEntry_leafPage, hsame, leafEntry_bits, leafEntry_bits, hflags]
    · cases hboth
  · cases hmap

/-- The word behind entry `i` of the leaf's table, rewritten. -/
theorem leaf_table_stores {t1 : Nat} (w : Word) (i : Fin 512) (hm : Mixed L root h)
    (hc : Covered L root h va t1 t) (hi : i = pgIndex 0 va 2) :
    Stores (pgMapper L false).format h.mem (setMem h.mem (slot t i) w) root 2 (pgIndex 0 va) t := by
  have hta := hm.tables.tree.aligned (Nat.le_refl 2) hc.second
  refine ⟨hc.second, ?_⟩
  intro idx' k b hk hb j hor
  refine if_neg fun he => ?_
  obtain ⟨hbt, hji⟩ := slot_inj (hm.tables.tree.aligned hk hb) hta he
  exact hor.elim (fun hne => hne hbt) fun hne => hne (hji.trans hi)

/-- An entry of the leaf's table is on the path only if it is the leaf. -/
theorem leaf_table_path {t1 : Nat} {i : Fin 512} (hr : StaticRoot L root) (hm : Mixed L root h)
    (hc : Covered L root h va t1 t) (hmem : slot t i ∈ walkPath h.mem va root 3) :
    i = pgIndex 0 va 2 := by
  have hta := hm.tables.tree.aligned (Nat.le_refl 2) hc.second
  have h1a := hm.tables.tree.aligned (show 1 ≤ 2 by decide) hc.first
  rw [hc.path] at hmem
  rcases List.mem_cons.mp hmem with he | hmem
  · have hb : tableAt (pgMapper L false).format h.mem root (pgIndex 0 va) 0 = some t :=
      congrArg some (slot_inj hta hr.aligned he).1.symm
    have := (hm.tables.tree.inj (Nat.zero_le 2) (Nat.le_refl 2) hb hc.second).1
    omega
  · rcases List.mem_cons.mp hmem with he | hmem
    · have hb : tableAt (pgMapper L false).format h.mem root (pgIndex 0 va) 1 = some t :=
        hc.first.trans (congrArg some (slot_inj hta h1a he).1.symm)
      have := (hm.tables.tree.inj (show 1 ≤ 2 by decide) (Nat.le_refl 2) hb hc.second).1
      omega
    · exact (slot_inj hta hta (List.mem_singleton.mp hmem)).2

/-- The outcome of `pg_map_4k` for an address under a leaf. -/
def PgHarmless (L : Layout) (withoutMmu : Bool) (root va pa : Nat) (attr : BitVec 32) (h : Host) : Prop :=
  Harmless (fun m => sv48Walk m root) L (walkPath h.mem va root 3) id (fun r : Int => r ≠ 0) va pa
    (requested attr) h (pgMap4k L withoutMmu root 0 va pa attr h)

/-- The page translates as requested before the call. -/
def InEffect (root va pa : Nat) (attr : BitVec 32) (m : Nat → Word) : Prop :=
  ∀ x, x < 4096 → sv48Walk m root (va / 4096 * 4096 + x) = some (pa + x, requested attr)

/-- Under a leaf `pg_map_4k` does no damage exactly where it faults on a table out of reach, or the
request is in effect and the entry it writes is there already. -/
theorem pgMap4k_harmless_iff (withoutMmu : Bool) (hr : StaticRoot L root) (hb : HugeBuilt L root h)
    (hva : va < 2 ^ 48) (hpa : pa % 4096 = 0) (hlt : pa < 2 ^ 56) (hacc : HasAccess attr)
    (hl : leafAbove h.mem va root 3 = some (t, n)) :
    PgHarmless L withoutMmu root va pa attr h ↔
      (withoutMmu = false ∧ ∃ a, a ∈ walkPath h.mem va root 3 ∧ Past L a) ∨
        (h.mem (t + 8 * vpn va 0) = (leafEntry pa attr).bits ∧ InEffect root va pa attr h.mem) := by
  have hm := hb.mixed hr
  obtain ⟨rfl, t1, hc⟩ := covered_of_leafAbove hm hl
  have haddr : t + 8 * vpn va 0 = slot t (pgIndex 0 va 3) := (slot_pgIndex t va 3).symm
  rw [past_path hr hm hc, haddr, PgHarmless]
  rcases pgMap4k_covered withoutMmu pa attr hr hm hc with ⟨hpast, hrun⟩ | ⟨hno, h', hrun, hmem, hbits⟩
  · rw [hrun]
    exact ⟨fun _ => .inl hpast, fun _ => ⟨fun _ _ => rfl, fun _ => .inl rfl⟩⟩
  · rw [hrun]
    constructor
    · rintro ⟨hor, hframe⟩
      have hmaps := (hor.resolve_left fun hf => hf.1 rfl).2
      have hnew : h'.mem (slot t (pgIndex 0 va 3)) = (leafEntry pa attr).bits := by
        rw [hmem]
        exact if_pos rfl
      have hold : h.mem (slot t (pgIndex 0 va 3)) = (leafEntry pa attr).bits := by
        rcases hframe (slot t (pgIndex 0 va 3)) with hsame | hpath | ⟨p, -, hfree, htaken, -⟩
        · exact hsame.symm.trans hnew
        · -- a word of the path: it is the leaf that was rewritten
          have hi := leaf_table_path hr hm hc hpath
          have hst := leaf_table_stores (leafEntry pa attr).bits (pgIndex 0 va 3) hm hc hi
          rw [← hmem] at hst
          rw [hi] at hnew ⊢
          exact leaf_rewritten hm hc hva hpa hlt hacc hst hnew hmaps
        · rw [hbits, hfree] at htaken
          cases htaken
      have hsame : h'.mem = h.mem := hmem.trans (setMem_same hold)
      refine .inr ⟨hold, fun x hx => ?_⟩
      rw [← hsame]
      exact hmaps.page x hx
    · rintro (hpast | ⟨hold, heff⟩)
      · exact absurd hpast hno
      · have hsame : h'.mem = h.mem := hmem.trans (setMem_same hold)
        rw [Harmless, hsame]
        exact ⟨.inr ⟨fun hf => hf rfl, heff, fun _ _ _ => rfl⟩, fun _ => .inl rfl⟩

end

/-! ## One leaf -/

/-- An empty root with one 2 MB leaf. -/
theorem one_block : ∃ h t, pgMap2MB imageLayout true 0x80300000 0 0x80000000 0x80000000 attrRw
      (clearHost initPageAllocator) = .ok 0 h ∧
    HugeBuilt imageLayout 0x80300000 h ∧
    leafAbove h.mem 0x80001000 0x80300000 3 = some (t, 1) ∧
    h.mem (t + 8 * vpn 0x80001000 1) = (leafEntry 0x80000000 attrRw).bits ∧
    h.mem (t + 8 * vpn 0x80001000 0) = 0 := by
  have hr := imageRoot
  have hempty : HugeBuilt imageLayout 0x80300000 (clearHost initPageAllocator) := .empty fun _ => rfl
  have hm := hempty.mixed hr
  have hmiss : hugeNeeded imageLayout 0x80300000 (clearHost initPageAllocator) 0x80000000 ≤
      evenFree initPageAllocator (2 ^ 18) := by
    have hle : hugeNeeded imageLayout 0x80300000 (clearHost initPageAllocator) 0x80000000 ≤ 2 :=
      Nat.le_trans List.countP_le_length (Nat.le_of_eq List.length_range)
    have hmono : evenFree initPageAllocator (2 ^ 17) ≤ evenFree initPageAllocator (2 ^ 18) :=
      evenFree_mono (by decide)
    have := evenFree_init
    omega
  have htop : Tables (pgMapper imageLayout true) 0x80300000 2 (clearHost initPageAllocator) :=
    ⟨hm.tables.tree, hm.tables.owned, hm.tables.root_taken⟩
  obtain ⟨h, b, l, hrun, hb, -, -, -, hw⟩ := mapPage_good htop (hr.at_root true)
    (show Sees (pgMapper imageLayout true) 0x80300000 2 (clearHost initPageAllocator) (pgIndex 0 0x80000000)
      from fun _ _ _ _ _ _ => rfl) (leafEntry 0x80000000 attrRw).bits hmiss
  have hacc : HasAccess attrRw := .inl rfl
  have hcall : pgMap2MB imageLayout true 0x80300000 0 0x80000000 0x80000000 attrRw
      (clearHost initPageAllocator) = .ok 0 h := by
    rw [pgMap2MB_eq]
    exact bind_ok hrun
  have hbuilt : HugeBuilt imageLayout 0x80300000 h := hempty.block hacc hmiss hcall
  -- the address of the next page has the same indices down to level 2
  have hag : AgreeTo 3 (pgIndex 0 0x80001000) (pgIndex 0 0x80000000) :=
    (agree_block (by decide) (by decide)).mpr (by decide)
  have hsecond : tableAt (pgMapper imageLayout false).format h.mem 0x80300000 (pgIndex 0 0x80001000) 2 =
      some b := (tableAt_congr (hag.mono (Nat.le_succ 2))).trans hb
  have hword : h.mem (slot b (pgIndex 0 0x80001000 2)) = (leafEntry 0x80000000 attrRw).bits := by
    have hlook := (hw content content_zero (pgIndex 0 0x80001000)).trans (if_pos hag)
    obtain ⟨c, hc, hd⟩ := Option.bind_eq_some_iff.mp
      (hlook.trans (content_eq_some.mpr ⟨rfl, leafEntry_ne_zero _ _⟩))
    obtain rfl : b = c := Option.some.inj (hsecond.symm.trans hc)
    exact (content_eq_some.mp hd).1
  have hleaf : LeafWord (h.mem (slot b (pgIndex 0 0x80001000 2))) := hword ▸ leafWord_leaf hacc
  -- and the entry at its last index is that of the next 2 MB
  have hag2 : AgreeTo 2 (pgIndex 0 0x80200000) (pgIndex 0 0x80000000) := by decide
  have hother : ¬ AgreeTo 3 (pgIndex 0 0x80200000) (pgIndex 0 0x80000000) := by
    rw [agree_block (by decide) (by decide)]
    decide
  have hfree : h.mem (slot b (pgIndex 0 0x80200000 2)) = 0 := by
    have hlook := (hw content content_zero (pgIndex 0 0x80200000)).trans (if_neg hother)
    have hthird : tableAt (pgMapper imageLayout true).format h.mem 0x80300000 (pgIndex 0 0x80200000) 2 =
        some b := (tableAt_congr hag2).trans hb
    have hclear : lookup (pgMapper imageLayout true).format content (clearHost initPageAllocator).mem
        0x80300000 2 (pgIndex 0 0x80200000) = none := lookup_of_clear (fun _ => rfl) content_zero
    rw [hclear, lookup, hthird, Option.bind_some, content] at hlook
    split at hlook
    · next h0 => exact h0
    · cases hlook
  refine ⟨h, b, hcall, hbuilt, leafAbove_of_leaf (hbuilt.mixed hr) hsecond hleaf, hword, ?_⟩
  have haddr : slot b (pgIndex 0 0x80200000 2) = b + 8 * vpn 0x80001000 0 := rfl
  rw [← haddr, hfree]

end HyperCore.Riscv64
