import HyperCore.AArch64.Stage2Map

/-!
# The guest's stage-2 table

The table is written from two places: `enable_stage2_traslation` at boot, with fixed
addresses, and `map_stage2_page` on a guest fault, from the region list that
`arch_vcpu_init` makes of the configuration. All of its maps are identity maps.

`validate_guest_dtb_config` compares the configuration with the guest's device tree
and sets no bounds on the addresses, so every configuration is one that some device
tree makes acceptable.

The module also counts the tables that a long range needs: one per level for the
first page, and at most one per level for each 2 MB boundary.
-/

namespace HyperCore.AArch64

open RadixTable Bitmap PageAlloc ArchPage TableMap

/-! ## The code -/

/-- `struct hyper_config`, as far as the stage-2 table depends on it. -/
structure HyperConfig where
  uartEnabled : Bool
  uartGuestBase : Nat
  uartGuestSize : Nat
  gicdBase : Nat
  gicrBase : Nat
  gicrSize : Nat
  memoryBase : Nat
  memorySize : Nat

/-- `struct mem_region` -/
structure MemRegion where
  gpa : Nat
  hpa : Nat
  size : Nat
  attr : MemAccess

/-- The regions of `arch_vcpu_init`: the virtual GIC, the virtual UART, guest memory. -/
def vcpuRegions (cfg : HyperConfig) : List MemRegion :=
  [⟨cfg.gicdBase, cfg.gicdBase,
      MachineInt.toUInt64 ((cfg.gicrBase : Int) + cfg.gicrSize - cfg.gicdBase), .none⟩,
    ⟨cfg.uartGuestBase, cfg.uartGuestBase, cfg.uartGuestSize, .none⟩,
    ⟨cfg.memoryBase, cfg.memoryBase, cfg.memorySize, .rwx⟩]

/-- `guest_mem_find_region`: the first region that holds `gpa`. -/
def guestMemFindRegion (regions : List MemRegion) (gpa : Nat) : Option MemRegion :=
  regions.find? fun r => r.gpa ≤ gpa && gpa < (r.gpa + r.size) % 2 ^ 64

/-- `map_stage2_page`: does the guest resume? -/
def mapStage2Page (L : Layout) (info : Stage2MmInfo) (regions : List MemRegion) (ipa : Nat) :
    HostM Bool :=
  match guestMemFindRegion regions ipa with
  | none => pure false
  | some mem => do
    let ipaAligned := ipa / pageSize * pageSize
    let hpaAligned := MachineInt.toUInt64 ((mem.hpa : Int) + (ipaAligned - mem.gpa))
    stage2Map L info ipaAligned hpaAligned pageSize .normalRw mem.attr
    pure true

/-- `enable_stage2_traslation` on the QEMU board, for the PARange `code`. -/
def enableStage2Traslation (L : Layout) (cfg : HyperConfig) (code : Fin 8) :
    HostM Stage2MmInfo := do
  let info ← s2AllocRootPages L (s2SetupInfo code)
  if info.paSize = 42 then fatal
  stage2Map L info 0x40000000 0x40000000 (10 * 2 ^ 20) .normalRw .rwx
  stage2Map L info 0x50200000 0x50200000 (2 ^ 30) .normalRw .rwx
  stage2Map L info 0x50000000 0x50000000 pageSize .normalRw .rwx
  unless cfg.uartEnabled do
    stage2Map L info 0x09000000 0x09000000 0x100 .deviceNc .rwx
  pure info

/-- The handling of a sequence of guest faults. -/
def handleFaults (L : Layout) (info : Stage2MmInfo) (regions : List MemRegion) :
    List Nat → HostM Unit
  | [] => pure ()
  | ipa :: ipas => do
    let _ ← mapStage2Page L info regions ipa
    handleFaults L info regions ipas

/-! ## How many tables a range needs -/

/-- Neighbouring pages share their tables unless a 2 MB boundary lies between. -/
theorem s2Index_next {startLevel a k : Nat} (hs : startLevel + k < 3) (ha : a % 4096 = 0)
    (hb : (a / 4096 + 1) % 512 ≠ 0) :
    s2Index startLevel (a + 4096) k = s2Index startLevel a k := by
  have hdiv : ∀ x, x / 2 ^ (12 + 9 * (3 - (startLevel + k))) =
      x / 2 ^ 21 / 2 ^ (9 * (2 - (startLevel + k))) := by
    intro x
    rw [Nat.div_div_eq_div_mul, ← Nat.pow_add]
    congr 2
    omega
  have hsame : (a + 4096) / 2 ^ 21 = a / 2 ^ 21 := by omega
  simp only [s2Index, pteOffset, hdiv, hsame]

/-- The multiples of 512 among `n` numbers in a row. -/
theorem countP_boundaries (c n : Nat) :
    (List.range n).countP (fun i => (c + i) % 512 == 0) + (c + 511) / 512 = (c + n + 511) / 512 := by
  induction n with
  | zero => simp
  | succ n ih =>
    rw [List.range_succ, List.countP_append, List.countP_singleton]
    by_cases hm : (c + n) % 512 = 0
    · simp only [hm, beq_self_eq_true, if_true]
      omega
    · simp only [beq_iff_eq, hm, if_false]
      omega

/-- A range of `n` pages that does not wrap needs at most `depth * (n / 512 + 3)` tables. -/
theorem s2Needed_le {L : Layout} {info : Stage2MmInfo} {h : Host} {vaddr mapSize : Nat}
    (ha : vaddr % 4096 = 0) (hlt : vaddr + 4096 * pageCount mapSize ≤ 2 ^ 48) :
    s2Needed L info h vaddr mapSize ≤ (3 - info.lookupLevel) * (pageCount mapSize / 512 + 3) := by
  cases hn : pageCount mapSize with
  | zero =>
    rw [s2Needed, hn, needed]
    exact Nat.zero_le _
  | succ n =>
    rw [hn] at hlt
    -- past the range every page counts as a start, which costs nothing
    have hsame : ∀ i, (fun i => (vaddr / 4096 + 1 + i) % 512 == 0 || decide (n ≤ i)) i = false →
        AgreeTo (3 - info.lookupLevel) (rangeIndex info vaddr (i + 1)) (rangeIndex info vaddr i) := by
      intro i hi k hk
      simp only [Bool.or_eq_false_iff, beq_eq_false_iff_ne, ne_eq, decide_eq_false_iff_not] at hi
      have h1 : (vaddr + pageSize * (i + 1)) % 2 ^ 64 = vaddr + pageSize * i + 4096 := by
        simp only [pageSize]
        omega
      have h2 : (vaddr + pageSize * i) % 2 ^ 64 = vaddr + pageSize * i := by
        simp only [pageSize]
        omega
      rw [rangeIndex, rangeIndex, h1, h2]
      exact s2Index_next (by omega) (by simp only [pageSize]; omega)
        (by simp only [pageSize]; omega)
    have hle : needed (s2Mapper L) (rootPhys L info) (3 - info.lookupLevel) h
        (rangeIndex info vaddr) (n + 1) ≤ _ := needed_le_breaks hsame n
    rw [s2Needed, hn]
    refine Nat.le_trans hle (Nat.mul_le_mul_left _ ?_)
    have hcount : (List.range n).countP
        (fun i => (vaddr / 4096 + 1 + i) % 512 == 0 || decide (n ≤ i)) =
        (List.range n).countP fun i => (vaddr / 4096 + 1 + i) % 512 == 0 := by
      refine List.countP_congr fun i hi => ?_
      rw [decide_eq_false (by have := List.mem_range.mp hi; omega), Bool.or_false]
    have hb := countP_boundaries (vaddr / 4096 + 1) n
    rw [hcount]
    omega

end HyperCore.AArch64
