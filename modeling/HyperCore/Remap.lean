import HyperCore.MapUnmap
import HyperCore.AArch64.HostPages

/-!
# Mapping a page that is mapped

Both mappers have a test for an entry in use. In `__ptw_map_4k_page` it stands at the level of the
leaf, and the call ends in `hyper_fatal`. In `s2_next_level_map` it asks for level 3, and
`stage2_map_4k` calls that function for the levels above it only: `stage2_map` refuses nothing, and
writes over the leaf (`remap_never_refused`).
-/

namespace HyperCore.AArch64

open RadixTable Bitmap PageAlloc ArchPage TableMap Stage2Contract

/-! ## Code without `hyper_fatal` -/

/-- Where `x` stops it has faulted. -/
def OnlyFaults {α : Type} (x : HostM α) : Prop := ∀ h e h', x h = .error e h' → e = .fault

namespace OnlyFaults

variable {α β : Type} {x : HostM α} {f : α → HostM β}

theorem pure (a : α) : OnlyFaults (Pure.pure a : HostM α) := nofun

theorem bind (hx : OnlyFaults x) (hf : ∀ a, OnlyFaults (f a)) : OnlyFaults (x >>= f) := by
  intro h e h' hrun
  cases hfirst : x h with
  | ok a h₁ =>
    rw [bind_ok hfirst] at hrun
    exact hf a h₁ e h' hrun
  | error e₁ h₁ =>
    rw [bind_error hfirst] at hrun
    cases hrun
    exact hx h e h' hfirst

theorem load (tr : Nat → Option Nat) (va : Nat) : OnlyFaults (load tr va) := by
  intro h e h' hrun
  rw [TableMap.load] at hrun
  split at hrun <;> cases hrun
  rfl

theorem storeLink (tr : Nat → Option Nat) (va : Nat) (w : Word) (page : Nat) :
    OnlyFaults (storeLink tr va w page) := by
  intro h e h' hrun
  rw [TableMap.storeLink] at hrun
  split at hrun <;> cases hrun
  rfl

theorem storeLeaf (tr : Nat → Option Nat) (va : Nat) (w : Word) : OnlyFaults (storeLeaf tr va w) := by
  intro h e h' hrun
  rw [TableMap.storeLeaf] at hrun
  split at hrun <;> cases hrun
  rfl

theorem clearPage (tr : Nat → Option Nat) (va : Nat) : OnlyFaults (clearPage tr va) := by
  intro h e h' hrun
  rw [TableMap.clearPage] at hrun
  split at hrun <;> cases hrun
  rfl

theorem takePage : OnlyFaults takePage := by
  intro h e h' hrun
  rw [TableMap.takePage] at hrun
  cases hrun

theorem forRounds {body : Nat → HostM Unit} (hbody : ∀ i, OnlyFaults (body i)) (n : Nat) :
    OnlyFaults (forRounds body n) := by
  induction n with
  | zero => exact .pure ()
  | succ n ih => exact ih.bind fun _ => hbody n

variable {L : Layout} (M : Mapper L)

theorem nextTable (table i : Nat) : OnlyFaults (M.nextTable table i) := by
  have hlink : OnlyFaults (M.linkTable (table + 8 * i)) :=
    takePage.bind fun fn => (clearPage _ _).bind fun _ => storeLink _ _ _ _
  refine (load _ _).bind fun e => ?_
  have hrest : OnlyFaults (do
      let e ← TableMap.load M.tr (table + 8 * i)
      if M.stop e then Pure.pure table else Pure.pure (M.tableAddr (M.base e))) := by
    refine (load _ _).bind fun e => ?_
    split
    · exact .pure _
    · exact .pure _
  split
  · exact hrest
  · exact hlink.bind fun _ => hrest

theorem descend (root : Nat) (idx : Nat → Fin 512) (k : Nat) : OnlyFaults (M.descend root idx k) := by
  induction k with
  | zero => exact .pure root
  | succ k ih => exact ih.bind fun table => nextTable M table (idx k)

theorem mapPage (root depth : Nat) (idx : Nat → Fin 512) (e : Word) :
    OnlyFaults (M.mapPage root depth idx e) :=
  (descend M root idx depth).bind fun _ => storeLeaf _ _ _

end OnlyFaults

/-- `stage2_map` never announces a fatal error, whatever the tree and the request. -/
theorem stage2Map_onlyFaults (L : Layout) {info : Stage2MmInfo} (hl : info.lookupLevel ≤ 3)
    (vaddr paddr mapSize : Nat) (attr : MemType) (acc : MemAccess) :
    OnlyFaults (stage2Map L info vaddr paddr mapSize attr acc) := by
  rw [stage2Map_eq L info vaddr paddr mapSize attr acc hl]
  exact .forRounds (fun i => .mapPage _ _ _ _ _) _

section

variable {L : Layout}

/-! ## Stage 2 -/

/-- `stage2_map` refuses the page of `ipa` and leaves its leaf as it is. -/
def RemapRefused (L : Layout) (info : Stage2MmInfo) (ipa paddr : Nat) (attr : MemType)
    (acc : MemAccess) (h : Host) : Prop :=
  ∃ h', stage2Map L info (ipa / 4096 * 4096) paddr pageSize attr acc h = .error .fatal h' ∧
    mmuWalk L info h'.mem ipa = mmuWalk L info h.mem ipa

/-- `stage2_map` replaces the leaf of `ipa`. -/
def Overwrites (L : Layout) (info : Stage2MmInfo) (ipa paddr : Nat) (attr : MemType)
    (acc : MemAccess) (h : Host) : Prop :=
  ∃ h', stage2Map L info (ipa / 4096 * 4096) paddr pageSize attr acc h = .ok () h' ∧
    mmuWalk L info h'.mem ipa = some (paddr + ipa % 4096, requested attr acc)

/-- A path that ends at a table lacks none. -/
theorem missing_of_table {M : Mapper L} {root depth b : Nat} {h : Host} {idx : Nat → Fin 512}
    (hb : tableAt M.format h.mem root idx depth = some b) : missing M root h idx depth = 0 := by
  rw [missing, List.countP_eq_zero]
  intro j hj hnone
  rw [Option.isNone_iff_eq_none] at hnone
  rw [tableAt_none (List.mem_range.mp hj) hnone] at hb
  cases hb

/-- One page with room for its tables is mapped, whatever was there. -/
theorem stage2_maps_page {info : Stage2MmInfo} {h : Host} {q ipa paddr : Nat}
    (hi : Stage2Inv L info h q) (hin : ipa < 2 ^ info.paSize ∧ ipa < 2 ^ reachBits info)
    (hfree : s2Needed L info h (ipa / 4096 * 4096) pageSize ≤ evenFree h.bitmap (2 ^ 17))
    (hpa : paddr % 4096 = 0) (hlt : paddr < 2 ^ 48) (attr : MemType) (acc : MemAccess) :
    InputRange (reachBits info) (ipa / 4096 * 4096) pageSize ∧
      Overwrites L info ipa paddr attr acc h := by
  have h48 := pow_bits_le (reachBits_le info)
  have hpages : pagesOf pageSize = 1 := rfl
  have hpage : 4096 ∣ 2 ^ reachBits info :=
    pow_dvd_pow 2 (show 12 ≤ reachBits info from Nat.le_add_right _ _)
  have hreach : ipa / 4096 * 4096 + pageSize * pagesOf pageSize ≤ 2 ^ reachBits info := by
    rw [hpages, pageSize]
    omega
  obtain ⟨h', hrun, hi', hentries⟩ :=
    stage2Map_entries hi (Nat.mul_mod_left _ _) hreach hfree paddr attr acc
  have hcover : Covers (ipa / 4096 * 4096) pageSize ipa := by
    rw [Covers, hpages, pageSize]
    omega
  have hsame : (paddr + (ipa - ipa / 4096 * 4096) / 4096 * 4096) % 2 ^ 64 = paddr := by omega
  refine ⟨(inputRange_of (Nat.mul_mod_left _ _) hreach).2, h', hrun, ?_⟩
  rw [mmuWalk_low hi'.tree hin.1 hin.2, (hentries _ (s2Leaf_zero ipa) ipa hin.2).1 hcover, hsame,
    s2Leaf_make attr acc hpa hlt]

/-- A page with a leaf lacks no table. -/
theorem stage2_overwrites {code : Fin 8} {info : Stage2MmInfo} {h : Host} {ipa paddr : Nat}
    (hw : Worked L code info h) (hleaf : mmuWalk L info h.mem ipa ≠ none) (hpa : paddr % 4096 = 0)
    (hlt : paddr < 2 ^ 48) (attr : MemType) (acc : MemAccess) :
    Overwrites L info ipa paddr attr acc h := by
  obtain ⟨q, hi, hg⟩ := hw.inv
  have hin : ipa < 2 ^ info.paSize ∧ ipa < 2 ^ reachBits info :=
    Classical.byContradiction fun hout => hleaf (mmuWalk_none hi.tree hg hout)
  have h48 := pow_bits_le (reachBits_le info)
  refine (stage2_maps_page hi hin ?_ hpa hlt attr acc).2
  rw [mmuWalk_low hi.tree hin.1 hin.2, ← Option.isSome_iff_ne_none] at hleaf
  obtain ⟨x, hx⟩ := Option.isSome_iff_exists.mp hleaf
  obtain ⟨b, hb, -⟩ := Option.bind_eq_some_iff.mp hx
  have hidx : AgreeTo (3 - info.lookupLevel) (s2Index info.lookupLevel ipa)
      (s2Index info.lookupLevel (ipa / 4096 * 4096)) := agree_of_page (by omega) _
  rw [tableAt_congr hidx] at hb
  rw [s2Needed_page hi.tree (by omega), missing_of_table hb]
  exact Nat.zero_le _

/-! ## The hypervisor's own tables -/

variable {root va phy call attr : Nat} {h : Host}

/-- From a table on the path of a page that is mapped the mapper comes to the entry in use. -/
theorem ptwMap4kPage_refuses {c : Nat} (hc : tableAt hostFormat h.mem root (hostIndex va) 3 = some c)
    (hlive : validBit (h.mem (slot c (hostIndex va 3))) = true)
    (hsee : ∀ j b, 0 < j → j ≤ 3 → tableAt hostFormat h.mem root (hostIndex va) j = some b →
      (hostMapper L attr).At (L.phyToVir b) b ∧ L.phyToVir b ≠ 0) (n : Nat) :
    ∀ {k t b}, k + n = 3 → tableAt hostFormat h.mem root (hostIndex va) k = some b →
      (hostMapper L attr).At t b → t ≠ 0 → ptwMap4kPage L va phy call n t h = .error .fatal h := by
  induction n with
  | zero =>
    intro k t b hk hb hat ht0
    obtain rfl : k = 3 := hk
    have hbc : b = c := Option.some.inj (hb.symm.trans hc)
    have hload : load L.hostTranslate (t + 8 * pteOffset va 3) h =
        .ok (h.mem (slot c (hostIndex va 3))) h := load_at (hbc ▸ hat) _ h
    rw [ptwMap4kPage, if_neg ht0, bind_ok hload, hlive, Bool.true_or, if_pos rfl]
    rfl
  | succ n ih =>
    intro k t b hk hb hat ht0
    have hlevel : 2 - n = k := by omega
    obtain ⟨c', hc'⟩ := Option.isSome_iff_exists.mp
      (tableAt_isSome_of_le (show k + 1 ≤ 3 by omega) (Option.isSome_of_eq_some hc))
    obtain ⟨hat', h0'⟩ := hsee (k + 1) c' (Nat.succ_pos k) (by omega) hc'
    have hnext := (tableAt_succ hb).symm.trans hc'
    have hlink : (pteIsValid (h.mem (slot b (hostIndex va k))) && tableBit (h.mem (slot b (hostIndex va k))))
        = true ∧ tableBase (h.mem (slot b (hostIndex va k))) = c' := by
      rw [hostFormat] at hnext
      dsimp only at hnext
      split at hnext
      · next hv => exact ⟨hv, Option.some.inj hnext⟩
      · cases hnext
    have hvalid := ((Bool.and_eq_true _ _).mp hlink.1).1
    have hload : load L.hostTranslate (t + 8 * pteOffset va k) h =
        .ok (h.mem (slot b (hostIndex va k))) h := load_at hat _ h
    have hpte : ptwNextPte L t (pteOffset va k) call h = .ok (h.mem (slot b (hostIndex va k))) h := by
      rw [ptwNextPte, bind_ok hload, hvalid]
      exact (bind_ok rfl).trans hload
    rw [ptwMap4kPage, if_neg ht0, hlevel, bind_ok hpte, hlink.2]
    exact ih (by omega) hc' hat' h0'

/-- `host_map_one_page` refuses a page that is mapped, before it has changed anything. -/
theorem hostMapOnePage_refuses (hr : BootPgtable L root) (hb : HostBuilt L root h)
    (hmapped : hostWalk h.mem root va ≠ none) (phy call : Nat) :
    hostMapOnePage L root va phy call h = .error .fatal h := by
  have hi := hb.inv hr 0
  rw [hostWalk_eq hi.tables.tree, ← Option.isSome_iff_ne_none] at hmapped
  obtain ⟨x, hx⟩ := Option.isSome_iff_exists.mp hmapped
  obtain ⟨c, hc, hx⟩ := Option.bind_eq_some_iff.mp hx
  have hlive : validBit (h.mem (slot c (hostIndex va 3))) = true := by
    cases hv : validBit (h.mem (slot c (hostIndex va 3))) with
    | true => rfl
    | false =>
      rw [hostLeaf_dead hv] at hx
      cases hx
  rw [tableAt_plain] at hc
  refine ptwMap4kPage_refuses hc hlive (fun j b h0 hj hbj => ?_) 3 (Nat.zero_add 3) rfl (hr.at_root 0)
    hr.ne_zero
  rw [← tableAt_plain L 0] at hbj
  obtain ⟨p, hp, rfl, -⟩ := hi.tables.owned h0 hj hbj
  exact ⟨hi.sees _ j _ h0 hj hbj, L.phyToVir_ne_zero (Nat.lt_trans hp (by decide))⟩

end

/-- For every stage-2 tree and every address with a leaf there, and every tree of the hypervisor's own
and every page mapped there: `stage2_map` refuses nothing and replaces the leaf, `host_map_one_page`
refuses. -/
theorem remap_never_refused (L : Layout) (code : Fin 8) (info : Stage2MmInfo) (h : Host) (ipa : Nat)
    (hw : Worked L code info h) (hleaf : mmuWalk L info h.mem ipa ≠ none) (root va : Nat) (g : Host)
    (hr : BootPgtable L root) (hb : HostBuilt L root g) (hmapped : hostWalk g.mem root va ≠ none) :
    (∀ paddr attr acc, ¬ RemapRefused L info ipa paddr attr acc h) ∧
      (∀ paddr attr acc, paddr % 4096 = 0 → paddr < 2 ^ 48 →
        Overwrites L info ipa paddr attr acc h) ∧
      ∀ phy attr, hostMapOnePage L root va phy attr g = .error .fatal g := by
  refine ⟨fun paddr attr acc hrefused => ?_, fun paddr attr acc hpa hlt =>
    stage2_overwrites hw hleaf hpa hlt attr acc, hostMapOnePage_refuses hr hb hmapped⟩
  obtain ⟨q, hi, -⟩ := hw.inv
  obtain ⟨h', hrun, -⟩ := hrefused
  have hfault := stage2Map_onlyFaults L hi.tree.level _ paddr pageSize attr acc h .fatal h' hrun
  cases hfault

/-! ## Two mapped pages -/

/-- After boot the page at 0x60000000 is mapped. -/
theorem stage2_mapped : ∃ h, Worked imageLayout 5 (bootInfo 5) h ∧
    mmuWalk imageLayout (bootInfo 5) h.mem 0x60000000 =
      some (0x60000000, requested .normalRw .rwx) := by
  have hbuilt : Built imageLayout 5 (bootInfo 5) (clearHost rootTaken) :=
    built_boot imageLayout (by decide) ⟨bit_rootTaken 2, bit_rootTaken 3⟩
  obtain ⟨q, hi, -⟩ := hbuilt.worked.inv
  have hle : s2Needed imageLayout (bootInfo 5) (clearHost rootTaken) (0x60000000 / 4096 * 4096)
      pageSize ≤ 3 := needed_le _
  have hfree := Nat.le_trans (Nat.le_trans hle (by decide)) evenFree_rootTaken
  obtain ⟨hin, h', hrun, hwalk⟩ : InputRange (reachBits (bootInfo 5)) (0x60000000 / 4096 * 4096) pageSize ∧
      Overwrites imageLayout (bootInfo 5) 0x60000000 0x60000000 .normalRw .rwx (clearHost rootTaken) :=
    stage2_maps_page hi (by decide) hfree (by decide) (by decide) .normalRw .rwx
  exact ⟨h', .map hbuilt.worked hin hfree hrun, hwalk⟩

/-- The UART is mapped into the window for devices. -/
theorem host_mapped : ∃ g, HostBuilt imageLayout 0x40200000 g ∧
    hostAddress g.mem 0x40200000 0xE100000000 = some 0x09000000 := by
  have hroom : hostNeeded 0x40200000 (clearHost initPageAllocator) 0xE100000000 ≤
      evenFree (clearHost initPageAllocator).bitmap (2 ^ 17) := by
    rw [MapUnmap.hostNeeded_clear]
    exact Riscv64.evenFree_init
  have hempty : hostAddress (clearHost initPageAllocator).mem 0x40200000 0xE100000000 = none := rfl
  obtain ⟨g, -, hb, -, hwalk⟩ := (MapUnmap.hostBuilt_clear imageLayout 0x40200000 _).map_page
    MapUnmap.imageBootPgtable hempty hroom 0x09000000 0
  refine ⟨g, hb, ?_⟩
  rw [hwalk, if_pos (AgreeTo.refl _ _), hostAddr_make1 0 (by decide) (by decide)]

theorem remap_never_refused_boot : ∃ h g,
    mmuWalk imageLayout (bootInfo 5) h.mem 0x60000000 ≠ none ∧
    hostWalk g.mem 0x40200000 0xE100000000 ≠ none ∧
    (∀ paddr attr acc, ¬ RemapRefused imageLayout (bootInfo 5) 0x60000000 paddr attr acc h) ∧
      (∀ paddr attr acc, paddr % 4096 = 0 → paddr < 2 ^ 48 →
        Overwrites imageLayout (bootInfo 5) 0x60000000 paddr attr acc h) ∧
      ∀ phy attr, hostMapOnePage imageLayout 0x40200000 0xE100000000 phy attr g =
        .error .fatal g := by
  obtain ⟨h, hw, hleaf⟩ := stage2_mapped
  obtain ⟨g, hb, haddr⟩ := host_mapped
  have hleaf : mmuWalk imageLayout (bootInfo 5) h.mem 0x60000000 ≠ none := by
    rw [hleaf]
    exact Option.some_ne_none _
  have hmapped : hostWalk g.mem 0x40200000 0xE100000000 ≠ none := by
    intro hnone
    rw [hostAddress, hnone] at haddr
    cases haddr
  exact ⟨h, g, hleaf, hmapped, remap_never_refused imageLayout 5 (bootInfo 5) h 0x60000000 hw hleaf
    0x40200000 0xE100000000 g MapUnmap.imageBootPgtable hb hmapped⟩

/-- A second call for the page at 0x60000000 returns, and the guest finds other memory there. -/
theorem leaf_replaced : ∃ h h', Worked imageLayout 5 (bootInfo 5) h ∧
    mmuWalk imageLayout (bootInfo 5) h.mem 0x60000000 = some (0x60000000, requested .normalRw .rwx) ∧
    stage2Map imageLayout (bootInfo 5) 0x60000000 0x50000000 pageSize .normalRw .rwx h = .ok () h' ∧
    mmuWalk imageLayout (bootInfo 5) h'.mem 0x60000000 =
      some (0x50000000, requested .normalRw .rwx) := by
  obtain ⟨h, hw, hleaf⟩ := stage2_mapped
  have hne : mmuWalk imageLayout (bootInfo 5) h.mem 0x60000000 ≠ none := by
    rw [hleaf]
    exact Option.some_ne_none _
  obtain ⟨h', hrun, hwalk⟩ : Overwrites imageLayout (bootInfo 5) 0x60000000 0x50000000 .normalRw .rwx h :=
    stage2_overwrites hw hne (by decide) (by decide) .normalRw .rwx
  exact ⟨h, h', hw, hleaf, hrun, hwalk⟩

end HyperCore.AArch64
