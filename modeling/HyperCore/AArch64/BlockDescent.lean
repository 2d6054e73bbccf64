import HyperCore.AArch64.BootTables
import HyperCore.AArch64.HostRoundTrip
import HyperCore.Core.HarmlessMap

/-!
# `__ptw_map_4k_page` under a block

The mapper does not test the table bit, so it goes on with the memory behind a block as its table
(`ptwMap4kPage_to_block`) and makes a descriptor of the word there at the last index, unless that looks in
use (`ptwMap4kPage_last`). So there is no damage exactly where the call fails
(`hostMapOnePage_harmless_iff`). All this holds in any memory; that the trees of the boot code have blocks
in their tables of level 2 is `twoLevel_blockAbove`.
-/

namespace HyperCore.AArch64

open RadixTable Bitmap PageAlloc ArchPage TableMap

/-- The table with the block that the walk of `va` meets, and the number of levels below it. No table
and no block of the host lies at address 0. -/
def blockAbove (m : Nat → Word) (va : Nat) : Nat → Nat → Option (Nat × Nat)
  | _, 0 => none
  | table, n + 1 =>
    let d := m (table + 8 * mmuIndex va (2 - n))
    if !pteIsValid d then none
    else if tableBit d then blockAbove m va (tableBase d) n
    else some (table, n + 1)

/-- The addresses of the descriptors that the walk of `va` reads. -/
def hostPath (m : Nat → Word) (va : Nat) : Nat → Nat → List Nat
  | table, 0 => [table + 8 * mmuIndex va 3]
  | table, n + 1 =>
    let d := m (table + 8 * mmuIndex va (2 - n))
    (table + 8 * mmuIndex va (2 - n)) ::
      if validBit d && tableBit d then hostPath m va (tableBase d) n else []

section

variable {L : Layout} {root vir phy attr t k : Nat} {h : Host}

/-- `phy_to_vir` of the table that a descriptor names. -/
theorem pointsTo_phyToVir (L : Layout) {e : Word} (he : baseField e ≠ 0) :
    PointsTo L (L.phyToVir (tableBase e)) (tableBase e) := by
  have hlt : baseField e < 2 ^ 36 := Nat.mod_lt _ (by decide)
  have hpos := Nat.pos_of_ne_zero he
  refine pointsTo_table L (Nat.mul_mod_left _ _) (Nat.mul_pos hpos (by decide)) ?_
  rw [tableBase]
  omega

theorem BootPgtable.pointsTo (hr : BootPgtable L root) : PointsTo L root root :=
  pointsTo_image hr.aligned hr.ne_zero hr.inside

/-- A block is met on valid descriptors. -/
theorem hostPath_valid {m : Nat → Word} {n : Nat} : ∀ {table}, blockAbove m vir table n = some (t, k) →
    ∀ a, a ∈ hostPath m vir table n → validBit (m a) = true := by
  induction n with
  | zero => exact fun hl => nomatch hl
  | succ n ih =>
    intro table hl a ha
    rw [blockAbove] at hl
    cases hv : pteIsValid (m (table + 8 * mmuIndex vir (2 - n))) with
    | false =>
      simp only [hv, Bool.not_false, if_true] at hl
      cases hl
    | true =>
      have hvalid := validBit_of_pteIsValid hv
      rw [hostPath] at ha
      rcases List.mem_cons.mp ha with rfl | ha
      · exact hvalid
      · cases htb : tableBit (m (table + 8 * mmuIndex vir (2 - n))) with
        | false =>
          simp only [htb, Bool.and_false, Bool.false_eq_true, if_false, List.not_mem_nil] at ha
        | true =>
          simp only [hvalid, htb, Bool.and_self, if_true] at ha
          simp only [hv, htb, Bool.not_true, Bool.false_eq_true, if_false, if_true] at hl
          exact ih hl a ha

theorem ptwNextPte_hit {v a : Nat} {i : Fin 512} (htr : L.hostTranslate (v + 8 * i) = some a)
    (hv : pteIsValid (h.mem a) = true) : ptwNextPte L v i attr h = .ok (h.mem a) h := by
  rw [ptwNextPte, bind_ok (load_reached htr)]
  simp only [hv, ↓reduceIte]
  exact load_reached htr

/-- The descent to the block, and one step past it: it faults on a descriptor past the direct map, or
goes on with the memory behind the block as its table. -/
theorem ptwMap4kPage_to_block (phy attr : Nat) {n : Nat} : ∀ {table v}, PointsTo L v table →
    blockAbove h.mem vir table n = some (t, k) →
      (∃ a, a ∈ hostPath h.mem vir table n ∧ Past L a) ∧
          ptwMap4kPage L vir phy attr n v h = .error .fault h ∨
        (¬ ∃ a, a ∈ hostPath h.mem vir table n ∧ Past L a) ∧
          pteIsValid (h.mem (t + 8 * mmuIndex vir (3 - k))) = true ∧
          ptwMap4kPage L vir phy attr n v h = ptwMap4kPage L vir phy attr (k - 1)
            (L.phyToVir (tableBase (h.mem (t + 8 * mmuIndex vir (3 - k))))) h := by
  induction n with
  | zero => exact fun _ hl => nomatch hl
  | succ n ih =>
    intro table v hp hl
    have hi : mmuIndex vir (2 - n) < 512 := Nat.mod_lt _ (by decide)
    have hcode : ptwMap4kPage L vir phy attr (n + 1) v h =
        (ptwNextPte L v (pteOffset vir (2 - n)) attr >>= fun e =>
          ptwMap4kPage L vir phy attr n (L.phyToVir (tableBase e))) h := by
      rw [ptwMap4kPage, if_neg hp.2.1]
    rw [blockAbove] at hl
    cases hv : pteIsValid (h.mem (table + 8 * mmuIndex vir (2 - n))) with
    | false =>
      simp only [hv, Bool.not_false, if_true] at hl
      cases hl
    | true =>
      have hvalid := validBit_of_pteIsValid hv
      have hbase : baseField (h.mem (table + 8 * mmuIndex vir (2 - n))) ≠ 0 := by
        rw [pteIsValid, Bool.and_eq_true, bne_iff_ne] at hv
        exact hv.2
      rcases hp.2.2 _ hi with ⟨hpast, hdark⟩ | ⟨hno, htr⟩
      · refine .inl ⟨⟨_, List.mem_cons_self, hpast⟩, ?_⟩
        rw [hcode]
        exact bind_error (bind_error (load_dark hdark))
      · have hentry : ptwNextPte L v (pteOffset vir (2 - n)) attr h =
            .ok (h.mem (table + 8 * mmuIndex vir (2 - n))) h := ptwNextPte_hit htr hv
        have hpath : ∀ a, a ∈ hostPath h.mem vir table (n + 1) ↔
            a = table + 8 * mmuIndex vir (2 - n) ∨
              a ∈ (if tableBit (h.mem (table + 8 * mmuIndex vir (2 - n))) then
                hostPath h.mem vir (tableBase (h.mem (table + 8 * mmuIndex vir (2 - n)))) n else []) := by
          intro a
          rw [hostPath]
          simp only [hvalid, Bool.true_and, List.mem_cons]
        rw [hcode, bind_ok hentry]
        simp only [hpath]
        cases htb : tableBit (h.mem (table + 8 * mmuIndex vir (2 - n))) with
        | false =>
          simp only [hv, htb, Bool.not_true, Bool.false_eq_true, if_false, Option.some.injEq,
            Prod.mk.injEq] at hl
          obtain ⟨rfl, rfl⟩ := hl
          have hlevel : 3 - (n + 1) = 2 - n := by omega
          rw [hlevel]
          refine .inr ⟨?_, hv, rfl⟩
          rintro ⟨a, rfl | ha, hpast⟩
          · exact hno hpast
          · cases ha
        | true =>
          simp only [hv, htb, Bool.not_true, Bool.false_eq_true, if_false, if_true] at hl
          rcases ih (pointsTo_phyToVir L hbase) hl with ⟨⟨a, ha, hpast⟩, hrun⟩ | ⟨hnone, hrest⟩
          · exact .inl ⟨⟨a, .inr ha, hpast⟩, hrun⟩
          · refine .inr ⟨?_, hrest⟩
            rintro ⟨a, rfl | ha, hpast⟩
            · exact hno hpast
            · exact hnone ⟨a, ha, hpast⟩

/-- The entry is in use, as `__ptw_map_4k_page` tests it at the last level. -/
def InUse (w : Word) : Prop := (validBit w || baseField w != 0) = true

instance (w : Word) : Decidable (InUse w) :=
  inferInstanceAs (Decidable ((validBit w || baseField w != 0) = true))

/-- The last level: it faults past the direct map, stops on an entry in use, and else makes a valid entry
of the word. -/
theorem ptwMap4kPage_last {v table : Nat} (vir phy attr : Nat) (h : Host) (hp : PointsTo L v table) :
    (Past L (table + 8 * mmuIndex vir 3) ∧ ptwMap4kPage L vir phy attr 0 v h = .error .fault h) ∨
    (InUse (h.mem (table + 8 * mmuIndex vir 3)) ∧
      ptwMap4kPage L vir phy attr 0 v h = .error .fatal h) ∨
    (¬ Past L (table + 8 * mmuIndex vir 3) ∧ ¬ InUse (h.mem (table + 8 * mmuIndex vir 3)) ∧
      ∃ h', ptwMap4kPage L vir phy attr 0 v h = .ok () h' ∧
        validBit (h'.mem (table + 8 * mmuIndex vir 3)) = true ∧ h'.bitmap = h.bitmap) := by
  obtain ⟨a, ha⟩ : ∃ a, a = table + 8 * mmuIndex vir 3 := ⟨_, rfl⟩
  have hi : mmuIndex vir 3 < 512 := Nat.mod_lt _ (by decide)
  have hacc := hp.2.2 _ hi
  rw [← ha] at hacc ⊢
  rw [ptwMap4kPage, if_neg hp.2.1]
  rcases hacc with ⟨hpast, hdark⟩ | ⟨hno, htr⟩
  · exact .inl ⟨hpast, bind_error (load_dark hdark)⟩
  · right
    have htr : L.hostTranslate (v + 8 * pteOffset vir 3) = some a := htr
    rw [bind_ok (load_reached htr)]
    cases huse : validBit (h.mem a) || baseField (h.mem a) != 0 with
    | true => exact .inl ⟨huse, rfl⟩
    | false =>
      obtain ⟨b, hb⟩ := hostTranslate_table hp.1 (pteOffset vir 3) htr
      obtain ⟨h₁, hrun₁, hmem₁, hbits₁⟩ := storeLeaf_reached (h := h) (makeStage1Entry phy attr) htr
      -- counting in the table's first word
      obtain ⟨h₂, hrun₂, hmem₂, hbits₂⟩ := store_reached (h := h₁)
        (setAvail (h₁.mem b) (avail (h₁.mem b) + 1)) hb
      obtain ⟨h₃, hrun₃, hmem₃, hbits₃⟩ := store_reached (h := h₂) (setAvail (h₂.mem a) 1) htr
      have hbump : bumpAvail L v h₁ = .ok () h₂ := by
        rw [bumpAvail, bind_ok (load_reached hb), hrun₂]
      have hmark : markAvail L (v + 8 * pteOffset vir 3) h₂ = .ok () h₃ := by
        rw [markAvail, bind_ok (load_reached htr), hrun₃]
      refine .inr ⟨hno, fun hu => ?_, h₃, ?_, ?_, ?_⟩
      · rw [InUse, huse] at hu
        cases hu
      · simp only [Bool.false_eq_true, if_false]
        exact (bind_ok hrun₁).trans ((bind_ok hbump).trans hmark)
      · have hvalid₁ : validBit (h₁.mem a) = true := by
          rw [hmem₁, setMem, if_pos rfl, validBit_make1]
        have hvalid₂ : validBit (h₂.mem a) = true := by
          rw [hmem₂, setMem]
          split
          · next hab => rw [validBit_setAvail, ← hab, hvalid₁]
          · exact hvalid₁
        rw [hmem₃, setMem, if_pos rfl, validBit_setAvail, hvalid₂]
      · rw [hbits₃, hbits₂, hbits₁]

/-- The outcome of `__ptw_map_4k_page` on the host's root, the counts of entries left out. -/
def HostHarmless (L : Layout) (root vir phy attr : Nat) (h : Host) : Prop :=
  Harmless (fun m => hostWalk m root) L (hostPath h.mem vir root 3) (fun w => setAvail w 0)
    (fun _ : Unit => False) vir phy (s1AttrOf (makeStage1Entry phy attr)) h
    (hostMapOnePage L root vir phy attr h)

/-- Under a 2 MB block `__ptw_map_4k_page` does no damage exactly where it fails: a table of the path or
the block is out of reach, or the word it takes for the entry of the last level is in use. -/
theorem hostMapOnePage_harmless_iff (phy attr : Nat) (hr : BootPgtable L root)
    (hl : blockAbove h.mem vir root 3 = some (t, 1)) :
    HostHarmless L root vir phy attr h ↔
      (∃ a, a ∈ hostPath h.mem vir root 3 ∧ Past L a) ∨
        Past L (tableBase (h.mem (t + 8 * mmuIndex vir 2)) + 8 * mmuIndex vir 3) ∨
        InUse (h.mem (tableBase (h.mem (t + 8 * mmuIndex vir 2)) + 8 * mmuIndex vir 3)) := by
  have hfail {e : Stop} (hrun : hostMapOnePage L root vir phy attr h = .error e h) :
      HostHarmless L root vir phy attr h := by
    rw [HostHarmless, hrun]
    exact ⟨fun _ _ => rfl, fun _ => .inl rfl⟩
  rcases ptwMap4kPage_to_block phy attr hr.pointsTo hl with ⟨hpast, hrun⟩ | ⟨hno, hv, hrun⟩
  · exact ⟨fun _ => .inl hpast, fun _ => hfail hrun⟩
  · have hbase : baseField (h.mem (t + 8 * mmuIndex vir 2)) ≠ 0 := by
      rw [pteIsValid, Bool.and_eq_true, bne_iff_ne] at hv
      exact hv.2
    rcases ptwMap4kPage_last vir phy attr h (pointsTo_phyToVir L hbase) with
      ⟨hpast, hlast⟩ | ⟨huse, hlast⟩ | ⟨hnp, hnu, h', hlast, hvalid, hbits⟩
    · exact ⟨fun _ => .inr (.inl hpast), fun _ => hfail (hrun.trans hlast)⟩
    · exact ⟨fun _ => .inr (.inr huse), fun _ => hfail (hrun.trans hlast)⟩
    · refine ⟨fun hharm => ?_, fun hor => (hor.elim hno fun hor => hor.elim hnp hnu).elim⟩
      have hok : hostMapOnePage L root vir phy attr h = .ok () h' := hrun.trans hlast
      rw [HostHarmless, hok] at hharm
      have hdead : validBit (h.mem (tableBase (h.mem (t + 8 * mmuIndex vir 2)) + 8 * mmuIndex vir 3)) =
          false := by
        rw [InUse, Bool.or_eq_true, not_or] at hnu
        exact Bool.eq_false_iff.mpr hnu.1
      -- the word behind the block became valid
      rcases hharm.2 (tableBase (h.mem (t + 8 * mmuIndex vir 2)) + 8 * mmuIndex vir 3) with
        hsame | hpath | ⟨p, -, hfree, htaken, -⟩
      · have hbit := congrArg validBit hsame
        rw [validBit_setAvail, validBit_setAvail, hvalid, hdead] at hbit
        cases hbit
      · have hlive := hostPath_valid hl _ hpath
        rw [hdead] at hlive
        cases hlive
      · rw [hbits, hfree] at htaken
        cases htaken

end

/-! ## The blocks of the boot code -/

theorem pteIsValid_make1 {pa : Nat} (attr : Nat) (hpos : 0 < pa) (ha : pa % 4096 = 0)
    (hlt : pa < 2 ^ 48) : pteIsValid (makeStage1Entry pa attr) = true := by
  rw [pteIsValid, validBit_make1, baseField_make1, Bool.true_and, bne_iff_ne]
  omega

/-- Every address of a range that the two-level builder mapped is under a block. -/
theorem twoLevel_blockAbove {L : Layout} {m m' : Nat → Word} {t0 t1 t2 t3 n attr : Nat} {r : BootRange}
    (hb : BootTables t0 t1 t2 t3 n) (hr : r.Blocks) (h1 : 0 < t1) (h2 : 0 < t2) (hp : 0 < r.phys)
    (hrun : buildHypTwoLevelPageTable L r.virt r.phys r.size attr t0 t1 t2 m = some m') {x : Nat}
    (hx : x < r.size) :
    blockAbove m' (r.virt + x) t0 3 = some (t2, 1) ∧
      hostPath m' (r.virt + x) t0 3 = [t0 + 8 * mmuIndex (r.virt + x) 0,
        t1 + 8 * mmuIndex (r.virt + x) 1, t2 + 8 * mmuIndex (r.virt + x) 2] ∧
      tableBase (m' (t2 + 8 * mmuIndex (r.virt + x) 2)) = r.phys + x / 2 ^ 21 * 2 ^ 21 := by
  obtain ⟨m'', hrun', he0, he1, he2, -⟩ := twoLevel_entries L m attr hb hr
  obtain rfl : m'' = m' := Option.some.inj (hrun'.symm.trans hrun)
  obtain ⟨-, ha1, ha2, -⟩ := hb.aligned
  obtain ⟨-, hlt1, hlt2, -⟩ := hb.below
  obtain ⟨hbv, hbp, hbs⟩ := hr
  have hslot := r.one_slot
  have hple := r.phys_le
  simp only [pageVirtOffset] at hlt1 hlt2
  have hv0 : mmuIndex (r.virt + x) 0 = mmuIndex r.virt 0 := by
    simp only [mmuIndex]
    omega
  have hv1 : mmuIndex (r.virt + x) 1 = mmuIndex r.virt 1 := by
    simp only [mmuIndex]
    omega
  have hv2 : mmuIndex (r.virt + x) 2 = mmuIndex r.virt 2 + x / 2 ^ 21 := by
    simp only [mmuIndex]
    omega
  have hlast : x / 2 ^ 21 ≤ r.lastSlot := by
    rw [BootRange.lastSlot]
    omega
  have hblock := he2 (x / 2 ^ 21) hlast
  rw [← hv2, Nat.mul_comm (2 ^ 21)] at hblock
  rw [← hv0] at he0
  rw [← hv1] at he1
  obtain ⟨pa, hpa⟩ : ∃ pa, pa = r.phys + x / 2 ^ 21 * 2 ^ 21 := ⟨_, rfl⟩
  rw [← hpa] at hblock ⊢
  have hbase : baseField (blockEntry pa) = pa / 2 ^ 12 := by
    rw [baseField_block]
    omega
  have hvalid : pteIsValid (blockEntry pa) = true := by
    rw [pteIsValid, validBit_block, hbase, Bool.true_and, bne_iff_ne]
    omega
  have hlink {t' : Nat} (hpos : 0 < t') (ha : t' % 4096 = 0) (hlt : t' < 0xF0 * 2 ^ 32) :
      pteIsValid (makeStage1Entry t' attr) = true ∧ tableBase (makeStage1Entry t' attr) = t' :=
    ⟨pteIsValid_make1 attr hpos ha (by omega), tableBase_make1 attr ha (by omega)⟩
  obtain ⟨hval1, hbase1⟩ := hlink h1 ha1 hlt1
  obtain ⟨hval2, hbase2⟩ := hlink h2 ha2 hlt2
  refine ⟨?_, ?_, ?_⟩
  · rw [blockAbove]
    simp only [he0, hval1, hbase1, tableBit_make1, Bool.not_true, Bool.false_eq_true, if_false, if_true]
    rw [blockAbove]
    simp only [he1, hval2, hbase2, tableBit_make1, Bool.not_true, Bool.false_eq_true, if_false, if_true]
    rw [blockAbove]
    simp only [hblock, hvalid, tableBit_block, Bool.not_true, Bool.false_eq_true, if_false]
  · rw [hostPath]
    simp only [he0, hbase1, validBit_make1, tableBit_make1, Bool.and_self, if_true]
    rw [hostPath]
    simp only [he1, hbase2, validBit_make1, tableBit_make1, Bool.and_self, if_true]
    rw [hostPath]
    simp only [hblock, tableBit_block, Bool.and_false, Bool.false_eq_true, if_false]
  · rw [hblock, tableBase, hbase]
    omega

/-- The image of an AArch64 board. -/
def boardLayout : Layout := ⟨0x40200000, by decide⟩

/-- The first 2 MB of the image, mapped by one block. -/
theorem boot_block : ∃ m', buildHypTwoLevelPageTable boardLayout 0x40000000 0x40000000 0x200000 7
      0x40100000 0x40101000 0x40102000 (fun _ => 0) = some m' ∧
    blockAbove m' 0x40001000 0x40100000 3 = some (0x40102000, 1) ∧
    (∀ a, a ∈ hostPath m' 0x40001000 0x40100000 3 → a < 0x40200000) ∧
    tableBase (m' (0x40102000 + 8 * mmuIndex 0x40001000 2)) = 0x40000000 ∧ m' 0x40000008 = 0 := by
  have hb : BootTables 0x40100000 0x40101000 0x40102000 0x40103000 1 :=
    ⟨by decide, by decide, fun t ht => by omega, by decide⟩
  have hblocks : imageRange.Blocks := ⟨rfl, rfl, rfl⟩
  obtain ⟨m', hrun, hexact⟩ := twoLevel_exact boardLayout (fun _ => 0) 7 hb hblocks
  obtain ⟨hblock, hpath, hbase⟩ := twoLevel_blockAbove (x := 0x1000) hb hblocks (by decide) (by decide)
    (by decide) hrun (by decide)
  have hlow (a : Nat) (ha : a ∈ hostPath m' 0x40001000 0x40100000 3) : a < 0x40200000 := by
    have hsplit : a ∈ [0x40100000 + 8 * mmuIndex 0x40001000 0, 0x40101000 + 8 * mmuIndex 0x40001000 1,
        0x40102000 + 8 * mmuIndex 0x40001000 2] := hpath ▸ ha
    have hall : ∀ b, b ∈ [0x40100000 + 8 * mmuIndex 0x40001000 0,
        0x40101000 + 8 * mmuIndex 0x40001000 1, 0x40102000 + 8 * mmuIndex 0x40001000 2] →
          b < 0x40200000 := by decide
    exact hall a hsplit
  refine ⟨m', hrun, hblock, hlow, hbase, ?_⟩
  rw [hexact.others]
  rintro (he | he | ⟨i, ⟨x, hx, rfl⟩, he⟩)
  · omega
  · omega
  · omega

end HyperCore.AArch64
