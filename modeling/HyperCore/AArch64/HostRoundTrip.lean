import HyperCore.AArch64.PageTable

/-!
# Mapping a page and unmapping it, in the hypervisor's own tables on AArch64

`HostBuilt` are the trees that `host_map_one_page` and `host_unmap_one_page` make of an empty root, in
any order and with any attributes, with the rest of the hypervisor running in between. In these trees
the two calls are inverse to each other exactly when the page did not translate before and the tables
it lacks fit into the direct map (`host_round_trip_iff`).

The attributes of another page are followed through a view that keeps those of its entry.
-/

namespace HyperCore.AArch64

open RadixTable Bitmap PageAlloc ArchPage TableMap

/-! ## Trees built by the code -/

/-- The links that the hardware follows. -/
def hostFormat : Format Word where
  next e := if pteIsValid e && tableBit e then some (tableBase e) else none
  clear := 0
  next_clear := by decide

/-- The root table `boot_pgtable` in the image. -/
structure BootPgtable (L : Layout) (root : Nat) : Prop where
  aligned : root % 4096 = 0
  pos : 0 < root
  inside : root + 4096 ≤ L.hyperEnd

/-- The number of tables that the page at `vir` lacks. -/
def hostNeeded (root : Nat) (h : Host) (vir : Nat) : Nat :=
  (List.range 3).countP fun j => (tableAt hostFormat h.mem root (hostIndex vir) (j + 1)).isNone

/-- Other code keeps its hands off the tables. -/
structure HostIdle (L : Layout) (root : Nat) (h h' : Host) : Prop where
  words : SameOn hostFormat h.mem h'.mem root 3
  pages : ∀ {idx k b p}, k ≤ 3 → tableAt hostFormat h.mem root idx k = some b → p < 2 ^ 20 →
    b = L.physPage p → bit h.bitmap p = true → bit h'.bitmap p = true

/-- The trees below `root` that the code makes of an empty table: calls of `host_map_one_page` with
room for their tables and calls of `host_unmap_one_page`, with other code running in between. -/
inductive HostBuilt (L : Layout) (root : Nat) : Host → Prop
  | empty {h : Host} : (∀ i : Fin 512, h.mem (slot root i) = 0) → HostBuilt L root h
  | map {h h' : Host} {vir phy attr : Nat} : HostBuilt L root h →
      hostNeeded root h vir ≤ evenFree h.bitmap (2 ^ 17) →
      hostMapOnePage L root vir phy attr h = .ok () h' → HostBuilt L root h'
  | unmap {h h' : Host} {vir : Nat} : HostBuilt L root h →
      hostUnmapOnePage L root vir h = .ok () h' → HostBuilt L root h'
  | other {h h' : Host} : HostBuilt L root h → HostIdle L root h h' → HostBuilt L root h'

/-! ## The tree through a view -/

section

variable {L : Layout} {root : Nat} {h h' : Host} {idx : Nat → Fin 512} {k : Nat}

/-- The host as the mapper with the attribute `attr` sees it. -/
abbrev Plain (attr : Nat) (h : Host) : Host := h.seen (hostView attr none)

theorem hostMapper_next (L : Layout) (attr : Nat) (w : Word) :
    (hostMapper L attr).format.next (withAttr attr w) = hostFormat.next w := by
  have hvalid : pteIsValid (withAttr attr w) = pteIsValid w := pteIsValid_hostView attr none 0 w
  have hbase : tableBase (withAttr attr w) = tableBase w := tableBase_hostView attr none 0 w
  show (if pteIsValid (withAttr attr w) && !false &&
      withAttr attr w == makeStage1Entry (tableBase (withAttr attr w)) attr
    then some (tableBase (withAttr attr w)) else none) = _
  show _ = if pteIsValid w && tableBit w then some (tableBase w) else none
  rw [hvalid, hbase]
  cases hv : pteIsValid w with
  | false => rfl
  | true =>
    have hform : (withAttr attr w == makeStage1Entry (tableBase w) attr) = tableBit w := by
      cases ht : tableBit w with
      | true =>
        have htable : w.toNat / 2 % 2 = 1 := by
          rwa [tableBit, beq_iff_eq] at ht
        have hdiv : baseField w * 4096 / 2 ^ 12 = baseField w := Nat.mul_div_cancel _ (by decide)
        rw [beq_iff_eq, withAttr, if_pos (validBit_of_pteIsValid hv), Pt.bits, makeStage1Entry,
          Pt.bits]
        simp only [htable, tableBase, hdiv, stage1Fields]
      | false =>
        refine beq_eq_false_iff_ne.mpr fun he => ?_
        have hbit := tableBit_make1 (tableBase w) attr
        rw [← he, tableBit_withAttr, ht] at hbit
        cases hbit
    rw [hform]
    rfl

/-- The mapper sees the tables that the hardware finds. -/
theorem tableAt_plain (L : Layout) (attr root : Nat) (h : Host) (idx : Nat → Fin 512) (k : Nat) :
    tableAt (hostMapper L attr).format (Plain attr h).mem root idx k =
      tableAt hostFormat h.mem root idx k :=
  tableAt_same fun a => hostMapper_next L attr (h.mem a)

theorem missing_plain (L : Layout) (attr root : Nat) (h : Host) (vir : Nat) :
    missing (hostMapper L attr) root (Plain attr h) (hostIndex vir) 3 = hostNeeded root h vir := by
  rw [missing, hostNeeded]
  simp only [tableAt_plain]

theorem BootPgtable.ne_zero (hr : BootPgtable L root) : root ≠ 0 := Nat.ne_of_gt hr.pos

theorem BootPgtable.at_root (hr : BootPgtable L root) (attr : Nat) :
    (hostMapper L attr).At root root := by
  intro i
  have hi := i.isLt
  have hin := hr.inside
  have hend := L.hyperEnd_lt
  exact L.hostTranslate_image (by omega)

theorem BootPgtable.ne_page (hr : BootPgtable L root) (p : Nat) : root ≠ L.physPage p := by
  have hin := hr.inside
  have hend := L.hyperEnd_lt
  simp only [Layout.physPage]
  omega

theorem hostMapper_faultsHigh (L : Layout) (attr : Nat) : (hostMapper L attr).FaultsHigh := by
  intro p h1 h2
  rw [hostMapper_half] at h1
  have hnone := L.hostTranslate_pageVir_high (show 2 ^ 18 ≤ p by omega) h2
  simp only [hostMapper, hnone]

theorem hostMapper_blindHigh (L : Layout) (attr : Nat) : (hostMapper L attr).BlindHigh := by
  intro p h1 h2 i
  rw [hostMapper_half] at h1
  exact L.hostTranslate_slot_high (Nat.le_trans (by decide) h1) h2 i

end

/-! ## The walk -/

/-- A last-level entry as the walk of `va` reads it. -/
def hostLeaf (va : Nat) (d : Word) : Option (Nat × S1Attr) :=
  if validBit d && tableBit d then some (baseField d * 4096 + va % 4096, s1AttrOf d) else none

/-- An entry that the last level of the walk accepts. -/
def hostPage (e : Word) : Option Unit := if validBit e && tableBit e then some () else none

theorem hostLeaf_dead {va : Nat} {e : Word} (he : validBit e = false) : hostLeaf va e = none := by
  rw [hostLeaf, he]
  rfl

theorem hostPage_dead {e : Word} (he : validBit e = false) : hostPage e = none := by
  rw [hostPage, he]
  rfl

theorem hostPage_isSome (va : Nat) (e : Word) : (hostPage e).isSome = (hostLeaf va e).isSome := by
  rw [hostPage, hostLeaf]
  split <;> rfl

theorem hostLeaf_setAvail (va : Nat) (w : Word) (n : Nat) :
    hostLeaf va (setAvail w n) = hostLeaf va w := by
  rw [hostLeaf, hostLeaf, validBit_setAvail, tableBit_setAvail, baseField_setAvail, s1AttrOf_setAvail]

theorem hostPage_hostView (attr : Nat) (exact : Option Nat) (a : Nat) (w : Word) :
    hostPage (hostView attr exact a w) = hostPage w := by
  rw [hostPage, hostPage, validBit_hostView, tableBit_hostView]

/-- From any table of the tree the hardware finds the last-level table of the tree. -/
theorem hostWalkFrom_eq {L : Layout} {attr : Nat} {exact : Option Nat} {h : Host} {root : Nat}
    (ht : Tree (hostMapper L attr).format (h.seen (hostView attr exact)).mem root 3) (va n : Nat) :
    ∀ {k b}, k + n = 3 →
      tableAt (hostMapper L attr).format (h.seen (hostView attr exact)).mem root (hostIndex va) k =
        some b →
      hostWalkFrom h.mem va b n =
        (tableAt (hostMapper L attr).format (h.seen (hostView attr exact)).mem root (hostIndex va)
          3).bind fun c => hostLeaf va (h.mem (slot c (hostIndex va 3))) := by
  induction n with
  | zero =>
    intro k b hk hb
    obtain rfl : k = 3 := hk
    rw [hb]
    rfl
  | succ n ih =>
    intro k b hk hb
    have hkd : k < 3 := by omega
    have hlevel : 2 - n = k := by omega
    have hslot : b + 8 * mmuIndex va k = slot b (hostIndex va k) := rfl
    have hnext := tableAt_succ hb
    have hseen : (h.seen (hostView attr exact)).mem (slot b (hostIndex va k)) =
        hostView attr exact (slot b (hostIndex va k)) (h.mem (slot b (hostIndex va k))) := rfl
    rw [hostWalkFrom, hlevel, hslot]
    rcases ht.entry hkd hb (hostIndex va k) with he | he
    · have hnone : tableAt (hostMapper L attr).format (h.seen (hostView attr exact)).mem root
          (hostIndex va) (k + 1) = none := by
        rw [hnext, he, Format.next_clear]
      have hdead : validBit (h.mem (slot b (hostIndex va k))) = false := by
        rw [← validBit_hostView attr exact (slot b (hostIndex va k)), ← hseen, he]
        exact validBit_zero
      rw [tableAt_none hkd hnone, hdead]
      rfl
    · obtain ⟨c, hc⟩ := Option.isSome_iff_exists.mp he
      obtain ⟨hv, -, hbase⟩ := (hostMapper L attr).of_next hc
      have hform := (hostMapper L attr).eq_entry hc
      -- the entry is a link, whatever its attributes are
      have hbit : tableBit (h.mem (slot b (hostIndex va k))) = true := by
        rw [← tableBit_hostView attr exact (slot b (hostIndex va k)), ← hseen, hform]
        exact tableBit_make1 c attr
      have hvalid : validBit (h.mem (slot b (hostIndex va k))) = true := by
        rw [← validBit_hostView attr exact (slot b (hostIndex va k)), ← hseen]
        exact validBit_of_pteIsValid hv
      have haddr : baseField (h.mem (slot b (hostIndex va k))) * 4096 = c := by
        rw [← baseField_hostView attr exact (slot b (hostIndex va k)), ← hseen]
        exact hbase
      simp only [hvalid, hbit, haddr, Bool.not_true, Bool.false_eq_true, ↓reduceIte]
      exact ih (by omega) (hnext.trans hc)

/-! ## The invariant -/

/-- A tree without idle tables and within the direct map, whose last-level entries are clear or
pages. -/
structure HostInv (L : Layout) (attr root : Nat) (g : Host) : Prop where
  tables : Tables (hostMapper L attr) root 3 g
  sees : ∀ idx, Sees (hostMapper L attr) root 3 g idx
  trim : Trim (hostMapper L attr).format (hostMapper L attr).alive g.mem root 3
  pages : ∀ idx, (lookup (hostMapper L attr).format filled g.mem root 3 idx).isSome →
    (lookup (hostMapper L attr).format hostPage g.mem root 3 idx).isSome

section

variable {L : Layout} {attr root vir phy : Nat} {h h' g g' : Host} {idx : Nat → Fin 512}

theorem hostPage_make1 (pa attr : Nat) : hostPage (makeStage1Entry pa attr) = some () := by
  rw [hostPage, validBit_make1, tableBit_make1]
  rfl

/-- Mapping an empty page keeps the invariant. -/
theorem HostInv.map (hr : BootPgtable L root) (hi : HostInv L attr root g)
    (hfree : missing (hostMapper L attr) root g idx 3 ≤ evenFree g.bitmap (2 ^ 17))
    (hrun : (hostMapper L attr).mapFree root 3 idx (makeStage1Entry phy attr) g = .ok () g') :
    HostInv L attr root g' := by
  obtain ⟨g₁, b, l, hrun₁, -, -, -, hg, hw⟩ := mapPage_good hi.tables (hr.at_root attr) (hi.sees idx)
    (makeStage1Entry phy attr) hfree
  cases hrun₁.symm.trans (mapFree_ok hrun)
  have hlive : (hostMapper L attr).alive (makeStage1Entry phy attr) = some () :=
    alive_live (validBit_make1 phy attr)
  have hnew (idx' : Nat → Fin 512) (hag : AgreeTo 4 idx' idx) :
      (lookup (hostMapper L attr).format (hostMapper L attr).alive g'.mem root 3 idx').isSome := by
    rw [hw _ alive_zero, if_pos hag, hlive]
    rfl
  refine ⟨hg.tables, fun idx' => (hi.sees idx').grown hg, ?_, fun idx' => ?_⟩
  · refine trim_grown hi.trim hg (fun {idx' k} hag => ⟨idx, AgreeTo.symm hag, ?_⟩) fun idx' hl => ?_
    · exact hnew idx (AgreeTo.refl _ _)
    · by_cases hag : AgreeTo 4 idx' idx
      · exact hnew idx' hag
      · rw [hw _ alive_zero, if_neg hag]
        exact hl
  · rw [hw filled filled_zero, hw hostPage rfl]
    split
    · rw [hostPage_make1]
      exact fun _ => rfl
    · exact hi.pages idx'

/-- Unmapping a page keeps the invariant. -/
theorem HostInv.unmap (hr : BootPgtable L root) (hi : HostInv L attr root g)
    (hrun : (hostMapper L attr).unmapAt idx 3 0 root g = .ok () g') : HostInv L attr root g' := by
  have hm := (unmapAt_ok hi.tables (hostMapper_blindHigh L attr) (Nat.zero_add 3) rfl
    (hr.at_root attr) hr.ne_zero hrun).1
  obtain ⟨g₁, hrun₁, hp⟩ := unmapAt_mapped hi.tables (hr.at_root attr) hr.ne_zero (hi.sees idx) hm
  cases hrun₁.symm.trans hrun
  refine ⟨hp.tables, fun idx' j b h0 hj hb => hi.sees idx' j b h0 hj (hp.old hj hb),
    trim_pruned hi.trim hp, fun idx' hl => ?_⟩
  obtain ⟨u, hu⟩ := Option.isSome_iff_exists.mp hl
  obtain ⟨b, hb, hword⟩ := Option.bind_eq_some_iff.mp hu
  -- an entry that is not clear was not cleared
  have hsame : g'.mem (slot b (idx' 3)) = g.mem (slot b (idx' 3)) := by
    refine (unmapAt_clears 3 hrun (slot b (idx' 3))).resolve_right fun hz => ?_
    rw [hz, filled_zero] at hword
    cases hword
  have hold := hp.old (Nat.le_refl _) hb
  have hpage := hi.pages idx' (by rw [lookup, hold, Option.bind_some, ← hsame, hword]; rfl)
  rw [lookup, hold, Option.bind_some, ← hsame] at hpage
  rw [lookup, hb, Option.bind_some]
  exact hpage

theorem HostIdle.plain (hu : HostIdle L root h h') (attr : Nat) :
    Untouched (hostMapper L attr) root 3 (Plain attr h) (Plain attr h') := by
  refine ⟨fun idx k b hk hb i => ?_, fun hk hb => ?_⟩
  · rw [tableAt_plain] at hb
    show hostView attr none (slot b i) (h'.mem (slot b i)) =
      hostView attr none (slot b i) (h.mem (slot b i))
    rw [hu.words idx k b hk hb i]
  · rw [tableAt_plain] at hb
    exact hu.pages hk hb

/-- Every built tree keeps the invariant, through the view of any attribute. -/
theorem HostBuilt.inv (hr : BootPgtable L root) (hb : HostBuilt L root h) (attr : Nat) :
    HostInv L attr root (Plain attr h) := by
  induction hb with
  | @empty h hz =>
    have hclear (i : Fin 512) : (Plain attr h).mem (slot root i) = 0 := by
      show hostView attr none (slot root i) (h.mem (slot root i)) = 0
      rw [hz i, hostView_zero]
    refine ⟨Tables.of_clear hclear hr.aligned fun _ he => absurd he (hr.ne_page _),
      fun idx j b h0 _ hb => ?_, .of_clear hclear, fun idx hl => ?_⟩
    · rw [tableAt_of_clear hclear h0] at hb
      cases hb
    · rw [lookup_of_clear hclear filled_zero] at hl
      cases hl
  | @map h h' vir phy call _ hneed hrun ih =>
    have hmap : Mirrors (hostView attr none) (hostMapOnePage L root vir phy call)
        ((hostMapper L attr).mapFree root 3 (hostIndex vir) (makeStage1Entry phy attr)) :=
      hostMapOnePage_mirrors (.inl rfl) vir phy hr.aligned hr.ne_zero
    have hseen := hmap.run hrun
    refine ih.map hr ?_ hseen
    rw [missing_plain]
    exact hneed
  | unmap _ hrun ih => exact ih.unmap hr ((hostUnmapOnePage_mirrors attr none root _).run hrun)
  | @other h h' _ hu ih =>
    have hut := hu.plain attr
    refine ⟨ih.tables.untouched hut, fun idx j b h0 hj hb => ?_, ih.trim.sameOn hut.words,
      fun idx => ?_⟩
    · exact ih.sees idx j b h0 hj (hut.words.tableAt_eq hj ▸ hb)
    · rw [hut.words.lookup_eq, hut.words.lookup_eq]
      exact ih.pages idx

end

/-! ## The round trip -/

section

variable {L : Layout} {attr root vir phy va b : Nat} {h : Host} {exact : Option Nat}

theorem hostWalk_eq
    (ht : Tree (hostMapper L attr).format (h.seen (hostView attr exact)).mem root 3) (va : Nat) :
    hostWalk h.mem root va =
      (tableAt (hostMapper L attr).format (h.seen (hostView attr exact)).mem root (hostIndex va)
        3).bind fun c => hostLeaf va (h.mem (slot c (hostIndex va 3))) :=
  hostWalkFrom_eq ht va 3 (Nat.zero_add 3) rfl

/-- A page that does not translate has no last-level page. -/
theorem hostWalk_none_iff
    (ht : Tree (hostMapper L attr).format (h.seen (hostView attr exact)).mem root 3) (va : Nat) :
    hostWalk h.mem root va = none ↔ lookup (hostMapper L attr).format hostPage
      (h.seen (hostView attr exact)).mem root 3 (hostIndex va) = none := by
  rw [hostWalk_eq ht, lookup]
  cases tableAt (hostMapper L attr).format (h.seen (hostView attr exact)).mem root (hostIndex va) 3 with
  | none => exact ⟨fun _ => rfl, fun _ => rfl⟩
  | some c =>
    have hword : hostPage ((h.seen (hostView attr exact)).mem (slot c (hostIndex va 3))) =
        hostPage (h.mem (slot c (hostIndex va 3))) := hostPage_hostView attr exact _ _
    rw [Option.bind_some, Option.bind_some, hword, ← Option.not_isSome_iff_eq_none,
      ← Option.not_isSome_iff_eq_none, hostPage_isSome va]

/-- Through the view that keeps its entry, the walk is that of the seen tree. -/
theorem hostWalk_exact (hexact : exact = some (slot b (hostIndex va 3)))
    (ht : Tree (hostMapper L attr).format (h.seen (hostView attr exact)).mem root 3)
    (hb : tableAt (hostMapper L attr).format (h.seen (hostView attr exact)).mem root (hostIndex va) 3 =
      some b) :
    hostWalk h.mem root va = lookup (hostMapper L attr).format (hostLeaf va)
      (h.seen (hostView attr exact)).mem root 3 (hostIndex va) := by
  rw [hostWalk_eq ht, lookup, hb, Option.bind_some, Option.bind_some]
  show _ = hostLeaf va (hostView attr exact (slot b (hostIndex va 3))
    (h.mem (slot b (hostIndex va 3))))
  rw [hostView, if_pos hexact, hostLeaf_setAvail]

/-- The view that keeps the entry of a page differs from the plain one in that entry alone. -/
theorem exact_stores {idx : Nat → Fin 512}
    (ht : Tables (hostMapper L attr) root 3 (Plain attr h))
    (hb : tableAt (hostMapper L attr).format (Plain attr h).mem root idx 3 = some b) :
    Stores (hostMapper L attr).format (Plain attr h).mem
      (h.seen (hostView attr (some (slot b (idx 3))))).mem root 3 idx b := by
  refine ⟨hb, fun {idx' k c} hk hc i hor => ?_⟩
  have hne : ¬ some (slot b (idx 3)) = some (slot c i) := by
    intro he
    obtain ⟨h1, h2⟩ := slot_inj (ht.tree.aligned (Nat.le_refl _) hb) (ht.tree.aligned hk hc)
      (Option.some.inj he)
    exact hor.elim (fun hx => hx h1.symm) fun hx => hx h2.symm
  show hostView attr (some (slot b (idx 3))) (slot c i) (h.mem (slot c i)) =
    hostView attr none (slot c i) (h.mem (slot c i))
  rw [hostView, if_neg hne]
  rfl

/-- The tree of a plain view, with the attributes of one entry kept. -/
theorem HostInv.keepEntry {idx : Nat → Fin 512} (hi : HostInv L attr root (Plain attr h))
    (hb : tableAt (hostMapper L attr).format (Plain attr h).mem root idx 3 = some b) :
    Tables (hostMapper L attr) root 3 (h.seen (hostView attr (some (slot b (idx 3))))) ∧
      (∀ idx', Sees (hostMapper L attr) root 3
        (h.seen (hostView attr (some (slot b (idx 3))))) idx') ∧
      Trim (hostMapper L attr).format (hostMapper L attr).alive
        (h.seen (hostView attr (some (slot b (idx 3))))).mem root 3 := by
  have hst := exact_stores hi.tables hb
  have htab {idx' : Nat → Fin 512} {k : Nat} (hk : k ≤ 3) :
      tableAt (hostMapper L attr).format (h.seen (hostView attr (some (slot b (idx 3))))).mem root
        idx' k = tableAt (hostMapper L attr).format (Plain attr h).mem root idx' k :=
    hst.tableAt_eq hi.tables.tree hk
  have halive (a : Nat) : (hostMapper L attr).alive
      ((h.seen (hostView attr (some (slot b (idx 3))))).mem a) =
        (hostMapper L attr).alive ((Plain attr h).mem a) := by
    show (if validBit (hostView attr (some (slot b (idx 3))) a (h.mem a)) then some () else none) =
      if validBit (hostView attr none a (h.mem a)) then some () else none
    rw [validBit_hostView, validBit_hostView]
  refine ⟨⟨hst.tree hi.tables.tree, fun h0 hk hc => ?_, hi.tables.root_taken⟩,
    fun idx' j c h0 hj hc => ?_, fun idx' k h0 hk hc => ?_⟩
  · exact hi.tables.owned h0 hk (htab hk ▸ hc)
  · exact hi.sees idx' j c h0 hj (htab hj ▸ hc)
  · rw [htab hk] at hc
    obtain ⟨idx'', hag, hl⟩ := hi.trim idx' k h0 hk hc
    refine ⟨idx'', hag, ?_⟩
    rw [lookup] at hl ⊢
    rw [htab (Nat.le_refl _)]
    simpa only [halive] using hl

/-- The mapping of an empty page and its unmapping, through a view. -/
theorem host_undone {g : Host} (hr : BootPgtable L root)
    (ht : Tables (hostMapper L attr) root 3 g) (hsee : Sees (hostMapper L attr) root 3 g (hostIndex vir))
    (htrim : Trim (hostMapper L attr).format (hostMapper L attr).alive g.mem root 3)
    (hempty : lookup (hostMapper L attr).format filled g.mem root 3 (hostIndex vir) = none)
    (hphy : phy % 4096 = 0) (hpos : 0 < phy) (hlt : phy < 2 ^ 48)
    (hfree : missing (hostMapper L attr) root g (hostIndex vir) 3 ≤ evenFree g.bitmap (2 ^ 17)) :
    ∃ g₁ g₂, (hostMapper L attr).mapFree root 3 (hostIndex vir) (makeStage1Entry phy attr) g =
        .ok () g₁ ∧ (hostMapper L attr).unmapAt (hostIndex vir) 3 0 root g₁ = .ok () g₂ ∧
      Tables (hostMapper L attr) root 3 g₂ ∧ Undone (hostMapper L attr) root 3 g g₂ := by
  have hbase : (hostMapper L attr).base (makeStage1Entry phy attr) ≠ 0 := by
    show tableBase (makeStage1Entry phy attr) ≠ 0
    rw [tableBase_make1 attr hphy hlt]
    omega
  rw [mapFree_eq ht (hr.at_root attr) hsee rfl hempty hfree]
  exact mapPage_undone ht htrim (hr.at_root attr) hr.ne_zero hsee
    (lookup_of_unfilled hempty alive_zero) (validBit_make1 phy attr) hbase hfree

/-- In every built tree, with enough free pages in the allocator: mapping a page and unmapping it
again leaves every translation and the allocator as they were exactly when the page did not translate
and the tables it lacks fit into the direct map. -/
theorem host_round_trip_iff (hr : BootPgtable L root) (hb : HostBuilt L root h)
    (hphy : phy % 4096 = 0) (hpos : 0 < phy) (hlt : phy < 2 ^ 48) (attr : Nat)
    (henough : hostNeeded root h vir ≤ evenFree h.bitmap (totalPages / 2)) :
    RoundTrip (fun m => hostWalk m root) (hostMapOnePage L root vir phy attr)
        (hostUnmapOnePage L root vir) h ↔
      hostWalk h.mem root vir = none ∧ hostNeeded root h vir ≤ evenFree h.bitmap (2 ^ 17) := by
  have hi := hb.inv hr attr
  have hmap (exact : Option Nat) : Mirrors (hostView attr exact) (hostMapOnePage L root vir phy attr)
      ((hostMapper L attr).mapFree root 3 (hostIndex vir) (makeStage1Entry phy attr)) :=
    hostMapOnePage_mirrors (.inr rfl) vir phy hr.aligned hr.ne_zero
  have hunmap (exact : Option Nat) := hostUnmapOnePage_mirrors (L := L) attr exact root vir
  rw [← missing_plain L attr] at henough ⊢
  constructor
  · rintro ⟨h₁, h₂, hrun, hrun₂, hwalks, -⟩
    have hseen := mapFree_ok ((hmap none).run hrun)
    have hseen₂ := (hunmap none).run hrun₂
    obtain ⟨-, hfree⟩ := mapPage_room hi.tables (hr.at_root attr) (hostMapper_blindHigh L attr)
      (hostMapper_faultsHigh L attr) henough hseen
    obtain ⟨-, hp⟩ := mapped_unmapped hi.tables (hr.at_root attr) hr.ne_zero
      (hostMapper_blindHigh L attr) (hi.sees _) hfree hseen hseen₂
    have hsame : hostWalk h₂.mem root vir = hostWalk h.mem root vir := hwalks vir
    refine ⟨?_, hfree⟩
    rw [← hsame, hostWalk_none_iff hp.tables.tree, hp.walks _ fun _ => hostPage_dead,
      if_pos (AgreeTo.refl _ _)]
  · rintro ⟨hnone, hfree⟩
    rw [hostWalk_none_iff hi.tables.tree] at hnone
    have hempty : lookup (hostMapper L attr).format filled (Plain attr h).mem root 3 (hostIndex vir) =
        none := by
      rw [← Option.not_isSome_iff_eq_none] at hnone ⊢
      exact fun hf => hnone (hi.pages _ hf)
    obtain ⟨g₁, g₂, hseen, hseen₂, ht₂, hu⟩ :=
      host_undone hr hi.tables (hi.sees _) hi.trim hempty hphy hpos hlt hfree
    obtain ⟨h₁, hrun, rfl⟩ := (hmap none).back hseen
    obtain ⟨h₂, hrun₂, rfl⟩ := (hunmap none).back hseen₂
    refine ⟨h₁, h₂, hrun, hrun₂, fun va => ?_, hu.bitmap⟩
    show hostWalk h₂.mem root va = hostWalk h.mem root va
    cases hl : lookup (hostMapper L attr).format hostPage (Plain attr h).mem root 3 (hostIndex va) with
    | none =>
      rw [(hostWalk_none_iff hi.tables.tree va).mpr hl, hostWalk_none_iff ht₂.tree,
        hu.walks hostPage (fun _ => hostPage_dead), hl]
    | some u =>
      -- another page: the calls through the view that keeps its entry
      obtain ⟨b, hb, -⟩ := Option.bind_eq_some_iff.mp hl
      have hst := exact_stores hi.tables hb
      obtain ⟨htx, hsx, htrimx⟩ := hi.keepEntry hb
      have hapart : ¬ AgreeTo 4 (hostIndex vir) (hostIndex va) := by
        intro hag
        rw [lookup_congr hag.symm, lookup_of_unfilled hempty rfl] at hl
        cases hl
      have htab {idx : Nat → Fin 512} {k : Nat} (hk : k ≤ 3) :
          tableAt (hostMapper L attr).format
            (h.seen (hostView attr (some (slot b (hostIndex va 3))))).mem root idx k =
              tableAt (hostMapper L attr).format (Plain attr h).mem root idx k :=
        hst.tableAt_eq hi.tables.tree hk
      have hemptyx : lookup (hostMapper L attr).format filled
          (h.seen (hostView attr (some (slot b (hostIndex va 3))))).mem root 3 (hostIndex vir) =
            none := by
        rw [hst.lookup_eq hi.tables.tree, if_neg hapart, hempty]
      have hfreex : missing (hostMapper L attr) root
          (h.seen (hostView attr (some (slot b (hostIndex va 3))))) (hostIndex vir) 3 ≤
          evenFree h.bitmap (2 ^ 17) := by
        refine Nat.le_trans (Nat.le_of_eq ?_) hfree
        rw [missing, missing]
        refine List.countP_congr fun j hj => ?_
        rw [htab (List.mem_range.mp hj)]
      obtain ⟨x₁, x₂, hx, hx₂, htx₂, hux⟩ :=
        host_undone hr htx (hsx _) htrimx hemptyx hphy hpos hlt hfreex
      cases ((hmap _).run hrun).symm.trans hx
      cases ((hunmap _).run hrun₂).symm.trans hx₂
      have hbx := (htab (Nat.le_refl 3)).trans hb
      have hbx₂ := (hux.tables (Nat.le_refl 3)).trans hbx
      rw [hostWalk_exact rfl htx₂.tree hbx₂, hostWalk_exact rfl htx.tree hbx]
      exact hux.walks (hostLeaf va) (fun _ => hostLeaf_dead) _

end

end HyperCore.AArch64
