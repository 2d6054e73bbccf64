import HyperCore.AArch64.Isolation
import HyperCore.AArch64.Stage2Contract

/-!
# The guest's memory and its stage-2 table

The device tree gives the guest one range of memory, and the UART page where the UART is not
emulated. `Exact` says that whatever the table lets the guest access lies there and is mapped as the
region says. Two writers of the table do not look at the range: `enable_stage2_traslation` maps fixed
addresses, up to 0x90200000; `map_stage2_page` looks up the faulting address, and then maps its whole
page, in the slot that the 9-bit indices give it.

Each address of a run is a stage-2 translation fault of the guest. Access faults change no entry.
-/

namespace HyperCore.AArch64

open RadixTable Bitmap PageAlloc ArchPage TableMap

/-! ## The guest's regions -/

/-- `guest.memory` -/
def memoryRegion (cfg : HyperConfig) : MemRegion := ⟨cfg.memoryBase, cfg.memoryBase, cfg.memorySize, .rwx⟩

/-- The page of the host's UART. -/
def uartPage : MemRegion := ⟨0x09000000, 0x09000000, pageSize, .rwx⟩

/-- What the configuration gives the guest access to. -/
def guestRegions (cfg : HyperConfig) : List MemRegion :=
  memoryRegion cfg :: if cfg.uartEnabled then [] else [uartPage]

/-- `ipa` lies in the region. -/
def MemRegion.Holds (r : MemRegion) (ipa : Nat) : Prop := r.gpa ≤ ipa ∧ ipa < r.gpa + r.size

/-- Every leaf that grants access lies in a region of the guest and translates as that region does. -/
def Exact (L : Layout) (info : Stage2MmInfo) (cfg : HyperConfig) (h : Host) : Prop :=
  ∀ ipa pa attr, mmuWalk L info h.mem ipa = some (pa, attr) → attr.af = true →
    ∃ r ∈ guestRegions cfg, r.Holds ipa ∧ pa = r.hpa + (ipa - r.gpa)

/-- The memory includes the fixed ranges of `enable_stage2_traslation`. -/
def CoversBoot (cfg : HyperConfig) : Prop :=
  cfg.memoryBase ≤ 0x40000000 ∧ 0x90200000 ≤ cfg.memoryBase + cfg.memorySize

/-- A fault at `ipa` finds no region or a device, or the page that gets an entry is the page of `ipa`
and all of it belongs to the guest. -/
def FaultInside (info : Stage2MmInfo) (cfg : HyperConfig) (ipa : Nat) : Prop :=
  ∀ mem, guestMemFindRegion (vcpuRegions cfg) ipa = some mem → mem.attr = .none ∨
    ipa / 4096 % 2 ^ 36 = ipa % 2 ^ reachBits info / 4096 ∧
      ∀ x, x / 4096 = ipa % 2 ^ reachBits info / 4096 → ∃ r ∈ guestRegions cfg, r.Holds x

section

variable {L : Layout} {info : Stage2MmInfo} {cfg : HyperConfig} {h h' h₂ : Host} {q ipa pa : Nat}
variable {code : Fin 8}

theorem guestRegions_identity {r : MemRegion} (hr : r ∈ guestRegions cfg) : r.hpa = r.gpa := by
  rw [guestRegions, List.mem_cons] at hr
  rcases hr with rfl | hr
  · rfl
  · split at hr
    · cases hr
    · rw [List.mem_singleton.mp hr]
      rfl

/-- A region translates an address of it to itself. -/
theorem holds_iff : (∃ r ∈ guestRegions cfg, r.Holds ipa ∧ pa = r.hpa + (ipa - r.gpa)) ↔
    (∃ r ∈ guestRegions cfg, r.Holds ipa) ∧ pa = ipa := by
  constructor
  · rintro ⟨r, hr, hh, he⟩
    refine ⟨⟨r, hr, hh⟩, ?_⟩
    have hge := hh.1
    rw [he, guestRegions_identity hr]
    omega
  · rintro ⟨⟨r, hr, hh⟩, he⟩
    refine ⟨r, hr, hh, ?_⟩
    have hge := hh.1
    rw [he, guestRegions_identity hr]
    omega

/-- Memory, or the UART page. -/
theorem inGuest_iff : (∃ r ∈ guestRegions cfg, r.Holds ipa) ↔
    (cfg.memoryBase ≤ ipa ∧ ipa < cfg.memoryBase + cfg.memorySize) ∨
      cfg.uartEnabled = false ∧ 0x09000000 ≤ ipa ∧ ipa < 0x09001000 := by
  cases huart : cfg.uartEnabled <;>
    simp [guestRegions, huart, MemRegion.Holds, memoryRegion, uartPage, pageSize]

/-! ## The walk from the root block -/

theorem paSize_ge (hg : Geometry code info) (hc : code ≠ 7) : 32 ≤ info.paSize := by
  rw [hg.paSize]
  clear hg
  revert hc code
  decide

/-- The walk is that of the tree, below the reach of the indices and the input size. -/
theorem mmuWalk_guest (ht : Stage2Tree L info h q) (hg : Geometry code info) (ipa : Nat) :
    mmuWalk L info h.mem ipa =
      if ipa < 2 ^ info.paSize ∧ ipa < 2 ^ reachBits info then guestWalk L info h ipa else none := by
  split
  · next hin =>
    rw [mmuWalk_low ht hin.1 hin.2, guestWalk, ht.rootPhys_eq, s2Walk_eq ht.level ht.tables.tree]
  · next hout => exact mmuWalk_none ht hg hout

/-- A power of two that is a number of pages has whole pages below it. -/
theorem lt_of_page {a x n : Nat} (hn : 12 ≤ n) (ha : a < 2 ^ n) (hpage : x / 4096 = a / 4096) :
    x < 2 ^ n := by
  have hpow : 2 ^ n = 2 ^ 12 * 2 ^ (n - 12) := by
    rw [← Nat.pow_add]
    congr 1
    omega
  rw [hpow] at ha ⊢
  omega

/-! ## Boot -/

/-- After boot the table is exact where the memory includes the fixed ranges. -/
theorem boot_exact_iff (hr : Running L info h q 0) (hg : Geometry code info) (hc : code ≠ 7)
    (hi : IdentityOn L info h (BootMapped cfg)) : Exact L info cfg h ↔ CoversBoot cfg := by
  have hpa : 2 ^ 32 ≤ 2 ^ info.paSize := pow_bits_le (paSize_ge hg hc)
  have hreach : 2 ^ 39 ≤ 2 ^ reachBits info := pow_bits_le hr.reach
  constructor
  · intro hx
    have hguest (ipa : Nat) (hlt : ipa < 2 ^ 32) (hm : BootMapped cfg ipa) :
        ∃ r ∈ guestRegions cfg, r.Holds ipa := by
      obtain ⟨attr, haf, hw⟩ := (hi ipa (by omega)).1 hm
      have hwalk := mmuWalk_guest hr.tree hg ipa
      rw [if_pos ⟨by omega, by omega⟩, hw] at hwalk
      exact (holds_iff.mp (hx ipa ipa attr hwalk haf)).1
    have hfirst := inGuest_iff.mp (hguest 0x40000000 (by decide) (.inl (by decide)))
    have hlast := inGuest_iff.mp (hguest 0x901FFFFF (by decide) (.inr (.inl (by decide))))
    rw [CoversBoot]
    omega
  · intro hcov ipa pa attr hw _
    rw [mmuWalk_guest hr.tree hg] at hw
    split at hw
    · next hin =>
      have hm : BootMapped cfg ipa := by
        refine Classical.byContradiction fun hno => ?_
        rw [(hi ipa hin.2).2 hno] at hw
        cases hw
      obtain ⟨attr', -, hw'⟩ := (hi ipa hin.2).1 hm
      rw [hw'] at hw
      cases hw
      refine holds_iff.mpr ⟨inGuest_iff.mpr ?_, rfl⟩
      obtain ⟨hbase, hend⟩ := hcov
      rcases hm with hm | hm | hm | hm
      · exact .inl (by omega)
      · exact .inl (by omega)
      · exact .inl (by omega)
      · exact .inr hm
    · cases hw

/-! ## Faults -/

/-- After a handled fault an exact table is exact where the fault was inside. -/
theorem fault_exact_iff (hr : Running L info h q 0) (hg : Geometry code info) (hc : code ≠ 7)
    (hx : Exact L info cfg h) (hipa : ipa < 2 ^ info.paSize) {b : Bool}
    (hrun : mapStage2Page L info (vcpuRegions cfg) ipa h = .ok b h') :
    Running L info h' q 0 ∧ (Exact L info cfg h' ↔ FaultInside info cfg ipa) := by
  have hsize : 2 ^ info.paSize ≤ 2 ^ 64 := pow_bits_le hg.block.2.2
  rcases fault_walks hr (Nat.lt_of_lt_of_le hipa hsize) hrun with
    ⟨hnone, rfl⟩ | ⟨mem, hfind, hr', hw⟩
  · refine ⟨hr, fun _ mem hfind => ?_, fun _ => hx⟩
    rw [hnone] at hfind
    cases hfind
  · refine ⟨hr', fun hx' mem' hfind' => ?_, fun hin ipa' pa attr hw' haf => ?_⟩
    · cases hfind.symm.trans hfind'
      rw [or_iff_not_imp_left]
      intro hacc
      have haf : (requested .normalRw mem.attr).af = true := bne_iff_ne.mpr hacc
      -- the whole page in the slot of `ipa` is below the reach and the input size
      have hpage (x : Nat) (hx : x / 4096 = ipa % 2 ^ reachBits info / 4096) :
          x < 2 ^ info.paSize ∧ x < 2 ^ reachBits info :=
        ⟨lt_of_page (Nat.le_trans (by decide) (paSize_ge hg hc))
            (Nat.lt_of_le_of_lt (Nat.mod_le _ _) hipa) hx,
          lt_of_page (Nat.le_trans (by decide) hr.reach) (Nat.mod_lt _ (Nat.two_pow_pos _)) hx⟩
      have hguest (x : Nat) (hxp : x / 4096 = ipa % 2 ^ reachBits info / 4096) :
          (∃ r ∈ guestRegions cfg, r.Holds x) ∧
            ipa / 4096 % 2 ^ 36 * 4096 + x % 4096 = x := by
        have hwalk := mmuWalk_guest hr'.tree hg x
        rw [if_pos (hpage x hxp), hw x (hpage x hxp).2, if_pos hxp] at hwalk
        exact holds_iff.mp (hx' x _ _ hwalk haf)
      refine ⟨?_, fun x hxp => (hguest x hxp).1⟩
      have hstart := (hguest (ipa % 2 ^ reachBits info / 4096 * 4096)
        (Nat.mul_div_cancel _ (by decide))).2
      omega
    · rw [mmuWalk_guest hr'.tree hg] at hw'
      split at hw'
      · next hlow =>
        rw [hw ipa' hlow.2] at hw'
        split at hw'
        · next hpage =>
          cases hw'
          rcases hin mem hfind with hdev | ⟨hsame, hall⟩
          · rw [hdev] at haf
            cases haf
          · refine holds_iff.mpr ⟨hall ipa' hpage, ?_⟩
            omega
        · have hold := mmuWalk_guest hr.tree hg ipa'
          rw [if_pos hlow, hw'] at hold
          exact hx ipa' pa attr hold haf
      · cases hw'

/-- In a run of handled faults from an exact table, every table is exact where every fault is
inside. -/
theorem run_exact_iff {ipas : List Nat} (hr : Running L info h q 0) (hg : Geometry code info)
    (hc : code ≠ 7) (hx : Exact L info cfg h) (hipas : ∀ ipa ∈ ipas, ipa < 2 ^ info.paSize)
    (hrun : handleFaults L info (vcpuRegions cfg) ipas h = .ok () h₂) :
    (∀ pre, pre <+: ipas → ∀ h', handleFaults L info (vcpuRegions cfg) pre h = .ok () h' →
      Exact L info cfg h') ↔ ∀ ipa ∈ ipas, FaultInside info cfg ipa := by
  induction ipas generalizing h with
  | nil =>
    refine ⟨fun _ _ hmem => absurd hmem List.not_mem_nil, fun _ pre hpre h' hpost => ?_⟩
    rw [List.prefix_nil.mp hpre] at hpost
    cases hpost
    exact hx
  | cons ipa ipas ih =>
    obtain ⟨b, h₁, hone, hrest⟩ := bind_eq_ok hrun
    obtain ⟨hr₁, hiff⟩ := fault_exact_iff hr hg hc hx (hipas ipa List.mem_cons_self) hone
    have hstep (pre : List Nat) : handleFaults L info (vcpuRegions cfg) (ipa :: pre) h =
        handleFaults L info (vcpuRegions cfg) pre h₁ := by
      rw [handleFaults, bind_ok hone]
    have hlater : ∀ i ∈ ipas, i < 2 ^ info.paSize :=
      fun i hi => hipas i (List.mem_cons_of_mem _ hi)
    constructor
    · intro hall
      have hx₁ : Exact L info cfg h₁ :=
        hall [ipa] (List.prefix_append [ipa] ipas) h₁ (by rw [hstep]; rfl)
      rw [List.forall_mem_cons]
      refine ⟨hiff.mp hx₁, (ih hr₁ hx₁ hlater hrest).mp fun pre hpre h' hpost => ?_⟩
      exact hall (ipa :: pre) ((List.prefix_cons_inj ipa).mpr hpre) h' (by rw [hstep]; exact hpost)
    · intro hall pre hpre h' hpost
      rw [List.forall_mem_cons] at hall
      have hx₁ := hiff.mpr hall.1
      cases pre with
      | nil =>
        cases hpost
        exact hx
      | cons a pre =>
        obtain ⟨rfl, htail⟩ := List.cons_prefix_cons.mp hpre
        rw [hstep] at hpost
        exact (ih hr₁ hx₁ hlater hrest).mpr hall.2 pre htail h' hpost

end

/-! ## Every run -/

/-- For every configuration and every PARange that boots: after allocations of at most `2 ^ 13` pages
boot ends, and in every run of handled faults every table is exact where the memory includes the fixed
ranges and every fault is inside. -/
theorem guest_memory_exact_iff (L : Layout) (cfg : HyperConfig) {code : Fin 8}
    (hc : code ≠ 3 ∧ code ≠ 7) {n : Nat} {h : Host} (ha : Allocated n h.bitmap) (hn : n ≤ 2 ^ 13) :
    ∃ info h₁, enableStage2Traslation L cfg code h = .ok info h₁ ∧
      ∀ ipas h₂, (∀ ipa ∈ ipas, ipa < 2 ^ info.paSize) →
        handleFaults L info (vcpuRegions cfg) ipas h₁ = .ok () h₂ →
        ((∀ pre, pre <+: ipas → ∀ h', handleFaults L info (vcpuRegions cfg) pre h₁ = .ok () h' →
            Exact L info cfg h') ↔
          CoversBoot cfg ∧ ∀ ipa ∈ ipas, FaultInside info cfg ipa) := by
  have hfree : ∀ m, 2 ^ 13 ≤ m → m < totalPages → bit h.bitmap m = false :=
    fun m hm hlt => ha.fresh.2 (Nat.le_trans hn (by decide)) m (Nat.le_trans hn hm) hlt
  obtain ⟨info, h₁, q, hrun, hg, hr, hi⟩ := boot_walks L cfg hc hfree
  refine ⟨info, h₁, hrun, fun ipas h₂ hipas hfaults => ?_⟩
  have hboot := boot_exact_iff hr hg hc.2 hi
  constructor
  · intro hall
    have hx : Exact L info cfg h₁ := hall [] List.nil_prefix h₁ rfl
    exact ⟨hboot.mp hx, (run_exact_iff hr hg hc.2 hx hipas hfaults).mp hall⟩
  · rintro ⟨hcov, hin⟩
    exact (run_exact_iff hr hg hc.2 (hboot.mpr hcov) hipas hfaults).mpr hin

/-- Memory from 0x40000000 to 0x90200000: after a fresh boot the table is exact. -/
theorem guest_memory_exact_iff_wide :
    ∃ info h₁, enableStage2Traslation imageLayout { qemuConfig with memorySize := 0x50200000 } 5
        (clearHost initPageAllocator) = .ok info h₁ ∧
      Exact imageLayout info { qemuConfig with memorySize := 0x50200000 } h₁ := by
  obtain ⟨info, h₁, hrun, hall⟩ := @guest_memory_exact_iff imageLayout
    { qemuConfig with memorySize := 0x50200000 } 5 (by decide) 0 (clearHost initPageAllocator) .init
    (by decide)
  refine ⟨info, h₁, hrun, (hall [] h₁ nofun rfl).mpr ⟨⟨by decide, by decide⟩, nofun⟩ [] List.nil_prefix
    h₁ rfl⟩

/-- The default configuration has 512 MB of memory: the table boot makes is not exact. -/
theorem default_not_exact :
    ¬ ∀ info h₁, enableStage2Traslation imageLayout qemuConfig 5 (clearHost initPageAllocator) =
      .ok info h₁ → Exact imageLayout info qemuConfig h₁ := by
  intro hall
  obtain ⟨info, h₁, q, hrun, hg, hr, hi⟩ := @boot_walks imageLayout qemuConfig 5
    (by decide) (clearHost initPageAllocator) fun m _ _ => bit_initBitmap m
  have hcov := (boot_exact_iff hr hg (by decide) hi).mp (hall info h₁ hrun)
  exact absurd hcov.2 (by decide)

end HyperCore.AArch64
