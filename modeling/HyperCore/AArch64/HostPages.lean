import HyperCore.AArch64.HostRoundTrip

/-!
# The hypervisor's pages

What calls of `host_map_one_page` and `host_unmap_one_page` do to the addresses that the walk finds
(`hostAddress`), one page at a time and for a loop over pages. The attributes of an entry do not count
here, so that one view of the tables serves for all calls.
-/

namespace HyperCore.AArch64

open RadixTable Bitmap PageAlloc ArchPage TableMap

/-- The address that the walk of `va` finds. -/
def hostAddress (m : Nat → Word) (root va : Nat) : Option Nat := (hostWalk m root va).map Prod.fst

/-- A last-level entry as the walk of `va` reads its address. -/
def hostAddr (va : Nat) (d : Word) : Option Nat := (hostLeaf va d).map Prod.fst

theorem hostAddr_dead {va : Nat} {d : Word} (hd : validBit d = false) : hostAddr va d = none := by
  rw [hostAddr, hostLeaf_dead hd]
  rfl

theorem hostAddr_make1 {va pa : Nat} (attr : Nat) (ha : pa % 4096 = 0) (hlt : pa < 2 ^ 48) :
    hostAddr va (makeStage1Entry pa attr) = some (pa + va % 4096) := by
  have hbase := tableBase_make1 attr ha hlt
  rw [tableBase] at hbase
  rw [hostAddr, hostLeaf, validBit_make1, tableBit_make1, hbase]
  rfl

/-- The address does not depend on the attributes. -/
theorem hostAddr_hostView (va attr : Nat) (exact : Option Nat) (a : Nat) (w : Word) :
    hostAddr va (hostView attr exact a w) = hostAddr va w := by
  rw [hostAddr, hostAddr, hostLeaf, hostLeaf, validBit_hostView, tableBit_hostView, baseField_hostView]
  split <;> rfl

section

variable {L : Layout} {root va phy call attr : Nat} {h h' : Host}

theorem hostAddress_eq (ht : Tree (hostMapper L attr).format (Plain attr h).mem root 3) (va : Nat) :
    hostAddress h.mem root va =
      lookup (hostMapper L attr).format (hostAddr va) (Plain attr h).mem root 3 (hostIndex va) := by
  rw [hostAddress, hostWalk_eq ht, lookup]
  cases tableAt (hostMapper L attr).format (Plain attr h).mem root (hostIndex va) 3 with
  | none => rfl
  | some c => exact (hostAddr_hostView va attr none (slot c (hostIndex va 3)) _).symm

/-- A page without an address has a clear entry, or no table for one. -/
theorem HostInv.unfilled (hi : HostInv L attr root (Plain attr h)) (hnone : hostAddress h.mem root va = none) :
    lookup (hostMapper L attr).format filled (Plain attr h).mem root 3 (hostIndex va) = none := by
  have hwalk : hostWalk h.mem root va = none := Option.map_eq_none_iff.mp hnone
  rw [hostWalk_none_iff hi.tables.tree] at hwalk
  rw [← Option.not_isSome_iff_eq_none] at hwalk ⊢
  exact fun hf => hwalk (hi.pages _ hf)

/-- A page without an address is mapped, if its tables fit into the direct map. -/
theorem HostBuilt.map_page (hr : BootPgtable L root) (hb : HostBuilt L root h)
    (hnone : hostAddress h.mem root va = none)
    (hfree : hostNeeded root h va ≤ evenFree h.bitmap (2 ^ 17)) (phy call : Nat) :
    ∃ h', hostMapOnePage L root va phy call h = .ok () h' ∧ HostBuilt L root h' ∧
      Grown (hostMapper L 0) root 3 (fun idx j => AgreeTo j idx (hostIndex va)) (hostNeeded root h va)
        (Plain 0 h) (Plain 0 h') ∧
      ∀ va', hostAddress h'.mem root va' = if AgreeTo 4 (hostIndex va') (hostIndex va)
        then hostAddr va' (makeStage1Entry phy 0) else hostAddress h.mem root va' := by
  have hi := hb.inv hr 0
  have hroom : missing (hostMapper L 0) root (Plain 0 h) (hostIndex va) 3 ≤
      evenFree (Plain 0 h).bitmap (hostMapper L 0).half := by
    rw [missing_plain]
    exact hfree
  obtain ⟨g, b, l, hseen, -, -, -, hg, hw⟩ := mapPage_good hi.tables (hr.at_root 0) (hi.sees _)
    (makeStage1Entry phy 0) hroom
  have hmap : Mirrors (hostView 0 none) (hostMapOnePage L root va phy call)
      ((hostMapper L 0).mapFree root 3 (hostIndex va) (makeStage1Entry phy 0)) :=
    hostMapOnePage_mirrors (.inl rfl) va phy hr.aligned hr.ne_zero
  rw [← mapFree_eq hi.tables (hr.at_root 0) (hi.sees _) rfl (hi.unfilled hnone) hroom] at hseen
  obtain ⟨h', hrun, rfl⟩ := hmap.back hseen
  have hb' : HostBuilt L root h' := .map hb hfree hrun
  rw [missing_plain] at hg
  refine ⟨h', hrun, hb', hg, fun va' => ?_⟩
  rw [hostAddress_eq hg.tables.tree, hw (hostAddr va') (hostAddr_dead validBit_zero),
    hostAddress_eq hi.tables.tree]

/-- While the pool lasts, a mapping returns only if its tables fit into the direct map. -/
theorem HostBuilt.map_room (hr : BootPgtable L root) (hb : HostBuilt L root h)
    (henough : hostNeeded root h va ≤ evenFree h.bitmap (totalPages / 2))
    (hrun : hostMapOnePage L root va phy call h = .ok () h') :
    hostNeeded root h va ≤ evenFree h.bitmap (2 ^ 17) := by
  have hi := hb.inv hr 0
  have hmap : Mirrors (hostView 0 none) (hostMapOnePage L root va phy call)
      ((hostMapper L 0).mapFree root 3 (hostIndex va) (makeStage1Entry phy 0)) :=
    hostMapOnePage_mirrors (.inl rfl) va phy hr.aligned hr.ne_zero
  rw [← missing_plain L 0] at henough ⊢
  exact (mapPage_room hi.tables (hr.at_root 0) (hostMapper_blindHigh L 0) (hostMapper_faultsHigh L 0)
    henough (mapFree_ok (hmap.run hrun))).2

/-- An unmapping that returns takes the page's address away, and no other. -/
theorem HostBuilt.unmapped (hr : BootPgtable L root) (hb : HostBuilt L root h)
    (hrun : hostUnmapOnePage L root va h = .ok () h') :
    HostBuilt L root h' ∧ ∀ va', hostAddress h'.mem root va' =
      if AgreeTo 4 (hostIndex va') (hostIndex va) then none else hostAddress h.mem root va' := by
  have hi := hb.inv hr 0
  have hseen := (hostUnmapOnePage_mirrors 0 none root va).run hrun
  have hm := (unmapAt_ok hi.tables (hostMapper_blindHigh L 0) (Nat.zero_add 3) rfl (hr.at_root 0)
    hr.ne_zero hseen).1
  obtain ⟨g, hrun', hp⟩ := unmapAt_mapped hi.tables (hr.at_root 0) hr.ne_zero (hi.sees _) hm
  cases hrun'.symm.trans hseen
  refine ⟨.unmap hb hrun, fun va' => ?_⟩
  rw [hostAddress_eq hp.tables.tree, hp.walks _ fun _ => hostAddr_dead, hostAddress_eq hi.tables.tree]

/-- A page with an address other than that of page zero is unmapped. -/
theorem HostBuilt.unmap_page (hr : BootPgtable L root) (hb : HostBuilt L root h) {pa : Nat}
    (hpa : hostAddress h.mem root va = some (pa + va % 4096)) (hal : pa % 4096 = 0) (hpos : 0 < pa) :
    ∃ h', hostUnmapOnePage L root va h = .ok () h' ∧ HostBuilt L root h' ∧
      ∀ va', hostAddress h'.mem root va' = if AgreeTo 4 (hostIndex va') (hostIndex va) then none
        else hostAddress h.mem root va' := by
  have hi := hb.inv hr 0
  have hm : Mapped (hostMapper L 0) root 3 (Plain 0 h) (hostIndex va) := by
    rw [hostAddress_eq hi.tables.tree] at hpa
    obtain ⟨c, hc, hword⟩ := Option.bind_eq_some_iff.mp hpa
    obtain ⟨⟨a, attr⟩, hleaf, hfst⟩ := Option.map_eq_some_iff.mp hword
    dsimp only at hfst
    rw [hostLeaf] at hleaf
    split at hleaf
    · next hvt =>
      have hlive := ((Bool.and_eq_true _ _).mp hvt).1
      have heq := congrArg Prod.fst (Option.some.inj hleaf)
      rw [hfst] at heq
      have hbase := Nat.add_right_cancel heq
      rw [Mapped, lookup, hc, Option.bind_some, Mapper.present]
      refine if_pos ?_
      rw [Bool.and_eq_true]
      refine ⟨hlive, bne_iff_ne.mpr fun hz => ?_⟩
      have hz : tableBase ((Plain 0 h).mem (slot c (hostIndex va 3))) = 0 := hz
      rw [tableBase, hbase] at hz
      omega
    · cases hleaf
  obtain ⟨g, hseen, -⟩ := unmapAt_mapped hi.tables (hr.at_root 0) hr.ne_zero (hi.sees _) hm
  obtain ⟨h', hrun, -⟩ := (hostUnmapOnePage_mirrors 0 none root va).back hseen
  exact ⟨h', hrun, hb.unmapped hr hrun⟩

/-- Other code changes no address. -/
theorem HostBuilt.idle (hr : BootPgtable L root) (hb : HostBuilt L root h) (hu : HostIdle L root h h')
    (va : Nat) : hostAddress h'.mem root va = hostAddress h.mem root va := by
  rw [hostAddress_eq ((hb.other hu).inv hr 0).tables.tree, hostAddress_eq (hb.inv hr 0).tables.tree,
    (hu.plain 0).words.lookup_eq]

/-! ## A loop over pages -/

/-- The tables that `n` pages at the addresses `va` lack. -/
def pagesNeeded (L : Layout) (root : Nat) (h : Host) (va : Nat → Nat) (n : Nat) : Nat :=
  needed (hostMapper L 0) root 3 (Plain 0 h) (fun i => hostIndex (va i)) n

/-- Distinct pages without addresses are mapped one after the other, if their tables fit into the direct
map. -/
theorem HostBuilt.map_pages (hr : BootPgtable L root) (hb : HostBuilt L root h) {n : Nat}
    {va : Nat → Nat} (hnone : ∀ i, i < n → hostAddress h.mem root (va i) = none)
    (hdist : ∀ i j, i < j → j < n → ¬ AgreeTo 4 (hostIndex (va i)) (hostIndex (va j)))
    (hfree : pagesNeeded L root h va n ≤ evenFree h.bitmap (2 ^ 17)) (pa : Nat → Nat) (call : Nat) :
    ∃ h', forRounds (fun i => hostMapOnePage L root (va i) (pa i) call) n h = .ok () h' ∧
      HostBuilt L root h' ∧
      Grown (hostMapper L 0) root 3 (fun idx j => ∃ i, i < n ∧ AgreeTo j idx (hostIndex (va i)))
        (pagesNeeded L root h va n) (Plain 0 h) (Plain 0 h') ∧
      (∀ i, i < n → ∀ va', AgreeTo 4 (hostIndex va') (hostIndex (va i)) →
        hostAddress h'.mem root va' = hostAddr va' (makeStage1Entry (pa i) 0)) ∧
      ∀ va', (∀ i, i < n → ¬ AgreeTo 4 (hostIndex va') (hostIndex (va i))) →
        hostAddress h'.mem root va' = hostAddress h.mem root va' := by
  induction n with
  | zero =>
    refine ⟨h, rfl, hb, Grown.refl (hb.inv hr 0).tables ?_, fun i hi => absurd hi (Nat.not_lt_zero i),
      fun _ _ => rfl⟩
    rintro idx k - ⟨i, hi, -⟩
    exact absurd hi (Nat.not_lt_zero i)
  | succ n ih =>
    obtain ⟨h₁, hrun, hb₁, hg, hat, hoff⟩ := ih (fun i hi => hnone i (Nat.lt_succ_of_lt hi))
      (fun i j hij hj => hdist i j hij (Nat.lt_succ_of_lt hj))
      (by rw [pagesNeeded, needed] at hfree; exact Nat.le_trans (Nat.le_add_right _ _) hfree)
    have hmiss : pagesNeeded L root h va (n + 1) = pagesNeeded L root h va n +
        missing (hostMapper L 0) root (Plain 0 h₁) (hostIndex (va n)) 3 := missing_grown hg
    rw [missing_plain] at hmiss
    have hcount : evenFree h₁.bitmap (2 ^ 17) + pagesNeeded L root h va n = evenFree h.bitmap (2 ^ 17) :=
      hg.count (Nat.le_refl _)
    have hnone₁ : hostAddress h₁.mem root (va n) = none := by
      rw [hoff _ fun i hi hag => hdist i n hi (Nat.lt_succ_self n) hag.symm]
      exact hnone n (Nat.lt_succ_self n)
    obtain ⟨h₂, hrun₂, hb₂, hg₂, hw⟩ := hb₁.map_page hr hnone₁ (by omega) (pa n) call
    refine ⟨h₂, ?_, hb₂, ?_, fun i hi va' hag => ?_, fun va' hno => ?_⟩
    · rw [forRounds, bind_ok hrun, hrun₂]
    · rw [hmiss]
      exact (hg.trans hg₂).congr fun _ => or_congr_right Nat.exists_lt_succ_right.symm
    · rw [hw va']
      rcases Nat.lt_or_ge i n with hlt | hge
      · rw [if_neg fun hag' => hdist i n hlt (Nat.lt_succ_self n) (hag.symm.trans hag')]
        exact hat i hlt va' hag
      · rw [Nat.le_antisymm (Nat.le_of_lt_succ hi) hge] at hag ⊢
        rw [if_pos hag]
    · rw [hw va', if_neg (hno n (Nat.lt_succ_self n))]
      exact hoff va' fun i hi => hno i (Nat.lt_succ_of_lt hi)

/-- While the pool lasts, the loop returns only if the tables of all its pages fit into the direct map. -/
theorem HostBuilt.map_pages_room (hr : BootPgtable L root) (hb : HostBuilt L root h) {n : Nat}
    {va pa : Nat → Nat} (hnone : ∀ i, i < n → hostAddress h.mem root (va i) = none)
    (hdist : ∀ i j, i < j → j < n → ¬ AgreeTo 4 (hostIndex (va i)) (hostIndex (va j)))
    (henough : pagesNeeded L root h va n ≤ evenFree h.bitmap (totalPages / 2))
    (hrun : forRounds (fun i => hostMapOnePage L root (va i) (pa i) call) n h = .ok () h') :
    pagesNeeded L root h va n ≤ evenFree h.bitmap (2 ^ 17) := by
  induction n generalizing h' with
  | zero => exact Nat.zero_le _
  | succ n ih =>
    obtain ⟨u, h₁, hrun₁, hrun₂⟩ := bind_eq_ok hrun
    have hle : pagesNeeded L root h va n ≤ evenFree h.bitmap (totalPages / 2) := by
      rw [pagesNeeded, needed] at henough
      exact Nat.le_trans (Nat.le_add_right _ _) henough
    have hnone' (i : Nat) (hi : i < n) := hnone i (Nat.lt_succ_of_lt hi)
    have hdist' (i j : Nat) (hij : i < j) (hj : j < n) := hdist i j hij (Nat.lt_succ_of_lt hj)
    have hfree := ih hnone' hdist' hle hrun₁
    obtain ⟨h₁', hrun', hb₁, hg, -⟩ := hb.map_pages hr hnone' hdist' hfree pa call
    cases hrun'.symm.trans hrun₁
    have hmiss : pagesNeeded L root h va (n + 1) = pagesNeeded L root h va n +
        missing (hostMapper L 0) root (Plain 0 h₁) (hostIndex (va n)) 3 := missing_grown hg
    rw [missing_plain] at hmiss
    have hlow : evenFree h₁.bitmap (2 ^ 17) + pagesNeeded L root h va n = evenFree h.bitmap (2 ^ 17) :=
      hg.count (Nat.le_refl _)
    have hall : evenFree h₁.bitmap (totalPages / 2) + pagesNeeded L root h va n =
        evenFree h.bitmap (totalPages / 2) := hg.count (show 2 ^ 17 ≤ totalPages / 2 by decide)
    have hroom := hb₁.map_room hr (by omega) hrun₂
    omega

/-- A loop of unmappings that returns takes the addresses of its pages away, and no others. -/
theorem HostBuilt.unmapped_pages (hr : BootPgtable L root) (hb : HostBuilt L root h) {n : Nat}
    {va : Nat → Nat} (hrun : forRounds (fun i => hostUnmapOnePage L root (va i)) n h = .ok () h') :
    HostBuilt L root h' ∧
      (∀ va', hostAddress h.mem root va' = none → hostAddress h'.mem root va' = none) ∧
      ∀ va', (∀ i, i < n → ¬ AgreeTo 4 (hostIndex va') (hostIndex (va i))) →
        hostAddress h'.mem root va' = hostAddress h.mem root va' := by
  induction n generalizing h' with
  | zero =>
    cases hrun
    exact ⟨hb, fun _ hnone => hnone, fun _ _ => rfl⟩
  | succ n ih =>
    obtain ⟨u, h₁, hrun₁, hrun₂⟩ := bind_eq_ok hrun
    obtain ⟨hb₁, hold, hsame⟩ := ih hrun₁
    obtain ⟨hb₂, hw⟩ := hb₁.unmapped hr hrun₂
    refine ⟨hb₂, fun va' hnone => ?_, fun va' hno => ?_⟩
    · rw [hw va', hold va' hnone, ite_self]
    · rw [hw va', if_neg (hno n (Nat.lt_succ_self n))]
      exact hsame va' fun i hi => hno i (Nat.lt_succ_of_lt hi)

end

end HyperCore.AArch64
