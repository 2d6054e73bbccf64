import HyperCore.AArch64.GuestMemory

/-!
# What the guest can reach

`Isolated` says that no leaf of the guest's stage-2 table translates to the
hypervisor's image or to a page the allocator has handed out. The boot code breaks
it: the board's memory starts at 0x40000000, the image is linked at
`CONFIG_ENTRY_ADDR` = 0x40080000, and `enable_stage2_traslation` gives the guest the
first 10 MB from 0x40000000 read, write and execute.

The leaf stays. A fault maps the page it names to itself, and no page shares its slot
below the reach of the 9-bit indices; so in every run of faults the image stays in
the guest's hands.
-/

namespace HyperCore.AArch64

open RadixTable Bitmap PageAlloc ArchPage TableMap

/-! ## Isolation -/

/-- `CONFIG_ENTRY_ADDR`, the place of `_hyper_start`. -/
def entryAddr : Nat := 0x40080000

/-- A layout whose image starts at `CONFIG_ENTRY_ADDR`. -/
structure HyperImage extends Layout where
  holds_entry : entryAddr + pageSize ≤ hyperEnd

/-- `pa` lies between `_hyper_start` and `_hyper_end`. -/
def InImage (L : Layout) (pa : Nat) : Prop := entryAddr ≤ pa ∧ pa < L.hyperEnd

/-- `pa` lies in a page that the allocator has handed out. -/
def HandedOut (L : Layout) (h : Host) (pa : Nat) : Prop :=
  ∃ p, p < totalPages ∧ bit h.bitmap p = true ∧ L.physPage p ≤ pa ∧ pa < L.physPage p + pageSize

/-- No leaf of the guest's table leads into the hypervisor. -/
def Isolated (L : Layout) (info : Stage2MmInfo) (h : Host) : Prop :=
  ∀ ipa pa attr, s2Walk h.mem (rootPhys L info) info.lookupLevel ipa = some (pa, attr) →
    ¬ InImage L pa ∧ ¬ HandedOut L h pa

/-- The guest's table maps the first page of the image to itself. -/
def MapsEntry (L : Layout) (info : Stage2MmInfo) (h : Host) : Prop :=
  ∃ attr, s2Walk h.mem (rootPhys L info) info.lookupLevel entryAddr = some (entryAddr, attr)

theorem MapsEntry.not_isolated {L : HyperImage} {info : Stage2MmInfo} {h : Host}
    (hm : MapsEntry L.toLayout info h) : ¬ Isolated L.toLayout info h := by
  intro hiso
  obtain ⟨attr, hw⟩ := hm
  refine (hiso _ _ _ hw).1 ⟨Nat.le_refl _, ?_⟩
  have := L.holds_entry
  simp only [pageSize] at this
  omega

/-! ## The state during boot and after it -/

/-- What the table gives the guest at `ipa`. -/
abbrev guestWalk (L : Layout) (info : Stage2MmInfo) (h : Host) (ipa : Nat) : Option (Nat × S2Attr) :=
  s2Walk h.mem (rootPhys L info) info.lookupLevel ipa

section

variable {L : Layout} {info : Stage2MmInfo} {h h' : Host} {q : Nat}

/-- A stage-2 tree of the running system: no page past the direct map is taken, and at
least `room` even pages inside it are free. -/
structure Running (L : Layout) (info : Stage2MmInfo) (h : Host) (q room : Nat) : Prop where
  tree : Stage2Tree L info h q
  reach : 39 ≤ reachBits info
  high : ∀ n, 2 ^ 18 ≤ n → n < totalPages → bit h.bitmap n = false
  room_le : room ≤ evenFree h.bitmap (2 ^ 17)

/-- Taking pages inside the direct map leaves those past it free. -/
theorem high_of_grown {root depth c : Nat} {S : (Nat → Fin 512) → Nat → Prop}
    (hg : Grown (s2Mapper L) root depth S c h h')
    (hh : ∀ n, 2 ^ 18 ≤ n → n < totalPages → bit h.bitmap n = false) (n : Nat) (hn : 2 ^ 18 ≤ n)
    (hlt : n < totalPages) : bit h'.bitmap n = false := by
  obtain ⟨l, hl⟩ := hg.takes
  refine Bool.eq_false_iff.mpr fun hset => ?_
  rcases (hl.bits n).mp hset with hset | hz
  · rw [hh n hn hlt] at hset
    cases hset
  · obtain ⟨p, hp, he, -⟩ := hl.zeroed hz
    rw [s2Mapper_half] at hp
    have := L.physPage_inj he
    omega

/-- Past the direct map there are always pages left. -/
theorem Running.pages_left {room : Nat} (hr : Running L info h q room) :
    2 ^ 18 ≤ evenFree h.bitmap (2 ^ 19) := by
  have hstretch : evenFree h.bitmap (2 ^ 17 + (2 ^ 19 - 2 ^ 17)) =
      evenFree h.bitmap (2 ^ 17) + (2 ^ 19 - 2 ^ 17) :=
    evenFree_stretch fun k h1 h2 => hr.high (2 * k) (by omega) (by simp only [totalPages]; omega)
  rw [show 2 ^ 17 + (2 ^ 19 - 2 ^ 17) = 2 ^ 19 by decide] at hstretch
  omega

/-- An identity map with room for its tables. -/
theorem Running.map {room cost vaddr mapSize : Nat} (hr : Running L info h q (room + cost))
    (hv : vaddr % 4096 = 0) (hlt : vaddr + 4096 * pageCount mapSize ≤ 2 ^ 39)
    (hcost : 3 * (pageCount mapSize / 512 + 3) ≤ cost) (attr : MemType) (acc : MemAccess) :
    ∃ h', stage2Map L info vaddr vaddr mapSize attr acc h = .ok () h' ∧
      Running L info h' q room ∧ ∀ ipa, ipa < 2 ^ reachBits info → guestWalk L info h' ipa =
        if vaddr ≤ ipa ∧ ipa < vaddr + 4096 * pageCount mapSize then
          some (ipa, requested attr acc)
        else guestWalk L info h ipa := by
  have hneed : s2Needed L info h vaddr mapSize ≤ cost := by
    refine Nat.le_trans (s2Needed_le hv (Nat.le_trans hlt (by decide))) (Nat.le_trans ?_ hcost)
    exact Nat.mul_le_mul_right _ (Nat.sub_le _ _)
  have hroom := hr.room_le
  obtain ⟨h', hrun, hg, hw⟩ := stage2Map_lookups hr.tree
    (inputRange_mono hr.reach ⟨hv, hlt⟩) vaddr attr acc (by omega)
  have htree := hr.tree.grown hg
  refine ⟨h', hrun, ⟨htree, hr.reach, high_of_grown hg hr.high, ?_⟩, fun ipa hipa => ?_⟩
  · have hcount := hg.count (n := 2 ^ 17) (Nat.le_of_eq (s2Mapper_half L))
    omega
  · have hbits := pow_bits_le (reachBits_le info)
    rw [guestWalk, guestWalk, hr.tree.rootPhys_eq, s2Walk_eq htree.level htree.tables.tree,
      s2Walk_eq htree.level hr.tree.tables.tree, hw _ (s2Leaf_zero _) ipa hipa]
    split
    · have haddr : (vaddr + (ipa - vaddr) / 4096 * 4096) % 2 ^ 64 / 2 ^ 12 % 2 ^ 36 * 4096 +
          ipa % 4096 = ipa := by
        omega
      rw [s2Leaf_address, haddr]
    · rfl

end

/-! ## Boot -/

theorem code_level {code : Fin 8} (hc : code ≠ 7) : 2 - (paRangeInfo code).sl0 ≤ 1 := by
  revert hc code
  decide

theorem pabits_ne {code : Fin 8} (hc : code ≠ 3) : (paRangeInfo code).pabits ≠ 42 := by
  revert hc code
  decide

/-- The lowest free run lies at or below the first page from which all pages are free. -/
theorem leastRun_below {bm : Bitmap} {cnt w : Nat} (h1 : 1 ≤ cnt) (hw : w % 2 = 0)
    (hin : w + cnt ≤ totalPages) (hfree : ∀ m, w ≤ m → m < totalPages → bit bm m = false) :
    ∃ p, LeastRun bm cnt p ∧ p ≤ w := by
  have hrun : FreeRun bm cnt w := ⟨hw, hin, fun m h1 h2 => hfree m h1 (by omega)⟩
  rcases allocPagesCnt_spec bm h1 (by omega) with ⟨p, hp, -⟩ | ⟨-, hno⟩
  · exact ⟨p, hp, hp.2 w hrun⟩
  · exact absurd hrun (hno w)

/-- The root block, with the pages from `2 ^ 13` on free. -/
theorem root_running (L : Layout) {code : Fin 8} (hc : code ≠ 7) {h : Host}
    (hfree : ∀ m, 2 ^ 13 ≤ m → m < totalPages → bit h.bitmap m = false) :
    ∃ info h' q, s2AllocRootPages L (s2SetupInfo code) h = .ok info h' ∧
      Geometry code info ∧ Running L info h' q (2 ^ 16) ∧
      ∀ ipa, guestWalk L info h' ipa = none := by
  have ho := rootOrder_le code
  have h1 := @Nat.one_le_two_pow (paRangeInfo code).rootOrder
  have h16 := pow_order_le ho
  have htot : totalPages = 2 ^ 20 := rfl
  obtain ⟨p, hp, hpw⟩ := leastRun_below h1 (by decide) (by omega) hfree
  have hbit₁ := bit_setBits h.bitmap (int_of_inside hp.1.2.1)
  have hfree₁ : ∀ m, 2 ^ 13 + 16 ≤ m → m < totalPages →
      bit (setBits h.bitmap p (2 ^ (paRangeInfo code).rootOrder : Nat)) m = false := by
    intro m hm hlt
    rw [hbit₁, hfree m (by omega) hlt, Bool.or_false]
    exact decide_eq_false (by omega)
  obtain ⟨q, hq, hqw⟩ := leastRun_below h1 (by decide) (by omega) hfree₁
  have hin : q + 2 ^ (paRangeInfo code).rootOrder ≤ 2 ^ 18 := by omega
  obtain ⟨h', hrun, -, hbits⟩ := @s2AllocRootPages_ok L (s2SetupInfo code) h p q ho hp hq hin
  have hfree' : ∀ m, 2 ^ 13 + 32 ≤ m → m < totalPages → bit h'.bitmap m = false := by
    intro m hm hlt
    refine Bool.eq_false_iff.mpr fun hset => ?_
    have hset := (hbits m).mp hset
    rw [show (s2SetupInfo code).rootPageOrder = (paRangeInfo code).rootOrder from rfl] at hset
    rcases hset with hset | hset | hset
    · rw [hfree m (by omega) hlt] at hset
      cases hset
    · omega
    · omega
  have hlevel : (s2SetupInfo code).lookupLevel ≤ 1 := code_level hc
  obtain ⟨q', htree, -, hz⟩ := stage2Tree_root L (Nat.le_trans hlevel (by decide)) ho
    ⟨p, q, hp, hq, hin⟩ hrun
  refine ⟨_, h', q', hrun, ⟨rfl, rfl, rfl⟩, ⟨htree, ?_, fun n hn hlt => hfree' n (by omega) hlt, ?_⟩,
    fun ipa => ?_⟩
  · have hl : 2 - (paRangeInfo code).sl0 ≤ 1 := code_level hc
    simp only [reachBits, s2SetupInfo]
    omega
  · have hstretch : evenFree h'.bitmap (2 ^ 12 + 16 + 2 ^ 16) =
        evenFree h'.bitmap (2 ^ 12 + 16) + 2 ^ 16 :=
      evenFree_stretch fun k h1 h2 => hfree' (2 * k) (by omega) (by omega)
    have hmono : evenFree h'.bitmap (2 ^ 12 + 16 + 2 ^ 16) ≤ evenFree h'.bitmap (2 ^ 17) :=
      evenFree_mono (by decide)
    omega
  · rw [guestWalk, htree.rootPhys_eq, s2Walk_eq htree.level htree.tables.tree]
    exact lookup_of_clear hz (s2Leaf_zero ipa)

/-- The addresses that `enable_stage2_traslation` maps. -/
def BootMapped (cfg : HyperConfig) (ipa : Nat) : Prop :=
  (0x40000000 ≤ ipa ∧ ipa < 0x40A00000) ∨ (0x50200000 ≤ ipa ∧ ipa < 0x90200000) ∨
    (0x50000000 ≤ ipa ∧ ipa < 0x50001000) ∨
      cfg.uartEnabled = false ∧ 0x09000000 ≤ ipa ∧ ipa < 0x09001000

/-- Exactly the addresses with `P` are mapped, each to itself and with access. -/
def IdentityOn (L : Layout) (info : Stage2MmInfo) (h : Host) (P : Nat → Prop) : Prop :=
  ∀ ipa, ipa < 2 ^ reachBits info →
    (P ipa → ∃ attr, attr.af = true ∧ guestWalk L info h ipa = some (ipa, attr)) ∧
      (¬ P ipa → guestWalk L info h ipa = none)

section

variable {L : Layout} {info : Stage2MmInfo} {h : Host} {q : Nat}

theorem Running.weaken {m n : Nat} (hle : n ≤ m) (hr : Running L info h q m) :
    Running L info h q n :=
  ⟨hr.tree, hr.reach, hr.high, Nat.le_trans hle hr.room_le⟩

/-- One more identity map with access. -/
theorem IdentityOn.map {P : Nat → Prop} {room cost vaddr mapSize : Nat}
    (hi : IdentityOn L info h P) (hr : Running L info h q (room + cost)) (hv : vaddr % 4096 = 0)
    (hlt : vaddr + 4096 * pageCount mapSize ≤ 2 ^ 39)
    (hcost : 3 * (pageCount mapSize / 512 + 3) ≤ cost) (attr : MemType) :
    ∃ h', stage2Map L info vaddr vaddr mapSize attr .rwx h = .ok () h' ∧
      Running L info h' q room ∧ IdentityOn L info h' fun ipa =>
        (vaddr ≤ ipa ∧ ipa < vaddr + 4096 * pageCount mapSize) ∨ P ipa := by
  obtain ⟨h', hrun, hr', hw⟩ := hr.map hv hlt hcost attr .rwx
  refine ⟨h', hrun, hr', fun ipa hipa => ?_⟩
  rw [hw ipa hipa]
  split
  · next hin => exact ⟨fun _ => ⟨_, rfl, rfl⟩, fun hno => absurd (.inl hin) hno⟩
  · next hout =>
    exact ⟨fun hc => (hi ipa hipa).1 (hc.resolve_left hout), fun hno => (hi ipa hipa).2 fun hp =>
      hno (.inr hp)⟩

theorem IdentityOn.congr {P Q : Nat → Prop} (hi : IdentityOn L info h P)
    (hiff : ∀ ipa, Q ipa ↔ P ipa) : IdentityOn L info h Q := by
  intro ipa hipa
  rw [hiff ipa]
  exact hi ipa hipa

end

/-- Boot succeeds, and the guest's table maps what the code names. -/
theorem boot_walks (L : Layout) (cfg : HyperConfig) {code : Fin 8} (hc : code ≠ 3 ∧ code ≠ 7)
    {h : Host} (hfree : ∀ m, 2 ^ 13 ≤ m → m < totalPages → bit h.bitmap m = false) :
    ∃ info h' q, enableStage2Traslation L cfg code h = .ok info h' ∧ Geometry code info ∧
      Running L info h' q 0 ∧ IdentityOn L info h' (BootMapped cfg) := by
  obtain ⟨info, h₁, q, hrun₁, hg, hr₁, hnone⟩ := root_running L hc.2 hfree
  have hsize : info.paSize ≠ 42 := by
    rw [hg.paSize]
    exact pabits_ne hc.1
  have hi₁ : IdentityOn L info h₁ fun _ => False :=
    fun ipa _ => ⟨False.elim, fun _ => hnone ipa⟩
  have hroom₁ : Running L info h₁ q (2 ^ 15 + 100) := hr₁.weaken (by decide)
  obtain ⟨h₂, hrun₂, hr₂, hi₂⟩ := @IdentityOn.map _ _ _ _ _ _ _ 0x40000000 (10 * 2 ^ 20) hi₁ hroom₁
    (by decide) (by decide) (by decide) .normalRw
  have hroom₂ : Running L info h₂ q (2 ^ 14 + 2 ^ 12) := hr₂.weaken (by decide)
  obtain ⟨h₃, hrun₃, hr₃, hi₃⟩ := @IdentityOn.map _ _ _ _ _ _ _ 0x50200000 (2 ^ 30) hi₂ hroom₂
    (by decide) (by decide) (by decide) .normalRw
  have hroom₃ : Running L info h₃ q (2 ^ 13 + 100) := hr₃.weaken (by decide)
  obtain ⟨h₄, hrun₄, hr₄, hi₄⟩ := @IdentityOn.map _ _ _ _ _ _ _ 0x50000000 pageSize hi₃ hroom₃
    (by decide) (by decide) (by decide) .normalRw
  have hboot : enableStage2Traslation L cfg code h = (do
      unless cfg.uartEnabled do
        stage2Map L info 0x09000000 0x09000000 0x100 .deviceNc .rwx
      pure info : HostM Stage2MmInfo) h₄ := by
    rw [enableStage2Traslation, bind_ok hrun₁]
    simp only [hsize, if_false]
    rw [bind_ok hrun₂, bind_ok hrun₃, bind_ok hrun₄]
  have hpages : pageCount (10 * 2 ^ 20) = 2560 ∧ pageCount (2 ^ 30) = 2 ^ 18 ∧
      pageCount pageSize = 1 ∧ pageCount 0x100 = 1 := by decide
  simp only [hpages] at hi₄
  rw [hboot]
  cases huart : cfg.uartEnabled with
  | true =>
    refine ⟨info, h₄, q, rfl, hg, hr₄.weaken (Nat.zero_le _), hi₄.congr fun ipa => ?_⟩
    simp only [BootMapped, huart, Bool.true_eq_false, false_and, or_false]
    omega
  | false =>
    have hroom₄ : Running L info h₄ q (0 + 100) := hr₄.weaken (by decide)
    obtain ⟨h₅, hrun₅, hr₅, hi₅⟩ := @IdentityOn.map _ _ _ _ _ _ _ 0x09000000 0x100 hi₄ hroom₄
      (by decide) (by decide) (by decide) .deviceNc
    refine ⟨info, h₅, q, ?_, hg, hr₅, hi₅.congr fun ipa => ?_⟩
    · simp only [Bool.false_eq_true, if_false]
      rw [bind_ok hrun₅]
      rfl
    · simp only [BootMapped, huart, hpages, or_false, eq_self, true_and]
      omega

/-- Boot succeeds, and the guest's table maps the image. -/
theorem boot_maps_entry (L : Layout) (cfg : HyperConfig) {code : Fin 8} (hc : code ≠ 3 ∧ code ≠ 7)
    {h : Host} (hfree : ∀ m, 2 ^ 13 ≤ m → m < totalPages → bit h.bitmap m = false) :
    ∃ info h' q, enableStage2Traslation L cfg code h = .ok info h' ∧
      Running L info h' q 0 ∧ MapsEntry L info h' := by
  obtain ⟨info, h', q, hrun, -, hr, hi⟩ := boot_walks L cfg hc hfree
  have hlt : entryAddr < 2 ^ reachBits info :=
    Nat.lt_of_lt_of_le (by decide) (pow_bits_le hr.reach)
  obtain ⟨attr, -, hw⟩ := (hi entryAddr hlt).1 (.inl (by decide))
  exact ⟨info, h', q, hrun, hr, attr, hw⟩

/-! ## Faults -/

/-- Every region of a vCPU is an identity map. -/
theorem vcpuRegions_identity (cfg : HyperConfig) {r : MemRegion} (hr : r ∈ vcpuRegions cfg) :
    r.hpa = r.gpa := by
  simp only [vcpuRegions, List.mem_cons, List.not_mem_nil, or_false] at hr
  rcases hr with rfl | rfl | rfl <;> rfl

section

variable {L : Layout} {info : Stage2MmInfo} {cfg : HyperConfig} {h h' : Host} {q ipa : Nat}

/-- A handled fault: nothing happens without a region; with one, the page in the slot of `ipa` gets an
entry for the page of `ipa`. -/
theorem fault_walks (hr : Running L info h q 0) (hipa : ipa < 2 ^ 64) {b : Bool}
    (hrun : mapStage2Page L info (vcpuRegions cfg) ipa h = .ok b h') :
    guestMemFindRegion (vcpuRegions cfg) ipa = none ∧ h' = h ∨
      ∃ mem, guestMemFindRegion (vcpuRegions cfg) ipa = some mem ∧ Running L info h' q 0 ∧
        ∀ ipa', ipa' < 2 ^ reachBits info → guestWalk L info h' ipa' =
          if ipa' / 4096 = ipa % 2 ^ reachBits info / 4096 then
            some (ipa / 4096 % 2 ^ 36 * 4096 + ipa' % 4096, requested .normalRw mem.attr)
          else guestWalk L info h ipa' := by
  cases hfind : guestMemFindRegion (vcpuRegions cfg) ipa with
  | none =>
    simp only [mapStage2Page, hfind] at hrun
    cases hrun
    exact .inl ⟨rfl, rfl⟩
  | some mem =>
    simp only [mapStage2Page, hfind] at hrun
    have hid := vcpuRegions_identity cfg (List.mem_of_find?_eq_some hfind)
    have haddr : MachineInt.toUInt64 ((mem.hpa : Int) +
        (((ipa / pageSize * pageSize : Nat) : Int) - mem.gpa)) = ipa / pageSize * pageSize := by
      rw [hid]
      simp only [MachineInt.toUInt64, pageSize]
      omega
    obtain ⟨u, h₁, hmap, hpure⟩ := bind_eq_ok hrun
    cases hpure
    rw [haddr] at hmap
    have hcount : pageCount pageSize = 1 := by decide
    have hle : s2Needed L info h (ipa / pageSize * pageSize) pageSize ≤ 3 := by
      have hn := @needed_le L (s2Mapper L) (rootPhys L info) (3 - info.lookupLevel) h
        (rangeIndex info (ipa / pageSize * pageSize)) 1
      rw [s2Needed, hcount]
      omega
    have hleft := hr.pages_left
    refine .inr ⟨mem, rfl, ?_⟩
    rcases Nat.lt_or_ge (evenFree h.bitmap (2 ^ 17))
        (s2Needed L info h (ipa / pageSize * pageSize) pageSize) with hlow | hroom
    · -- the direct map is used up: the fault handler itself faults
      have hs : Spoiled _ _ (stage2Map L info (ipa / pageSize * pageSize)
          (ipa / pageSize * pageSize) pageSize .normalRw mem.attr h) :=
        stage2Map_spoiled hr.tree .normalRw mem.attr hlow (by omega)
      rw [hmap] at hs
      exact absurd (s2Mapper_faultsHigh L) hs.1
    · rw [s2Needed, hr.tree.rootPhys_eq, hcount] at hroom
      rw [stage2Map_eq L info _ _ _ _ _ hr.tree.level, hcount] at hmap
      obtain ⟨h₂, hrun₂, hg, hw⟩ := mapPages_good hr.tree.tables hr.tree.at_root
        (fun i => makeStage2Entry ((ipa / pageSize * pageSize + pageSize * i) % 2 ^ 64) .normalRw
          mem.attr) (fun i _ => hr.tree.sees _) hroom
      cases hrun₂.symm.trans hmap
      have htree := hr.tree.grown hg
      refine ⟨⟨htree, hr.reach, high_of_grown hg hr.high, Nat.zero_le _⟩, fun ipa' hipa' => ?_⟩
      have hpage : (ipa / pageSize * pageSize + pageSize * 0) % 2 ^ 64 = ipa / 4096 * 4096 := by
        simp only [pageSize]
        omega
      have hagree : AgreeTo (3 - info.lookupLevel + 1) (s2Index info.lookupLevel ipa')
          (rangeIndex info (ipa / pageSize * pageSize) 0) ↔
            ipa' / 4096 = ipa % 2 ^ reachBits info / 4096 := by
        have hcut : ipa / 4096 * 4096 % 2 ^ reachBits info / 4096 =
            ipa % 2 ^ reachBits info / 4096 := by
          have hpow : 2 ^ reachBits info = 4096 * 2 ^ (9 * (4 - info.lookupLevel)) := by
            rw [reachBits, Nat.pow_add]
          rw [hpow, Nat.mod_mul_right_div_self, Nat.mod_mul_right_div_self,
            Nat.mul_div_cancel _ (by decide)]
        have hiff : AgreeTo (3 - info.lookupLevel + 1) (s2Index info.lookupLevel ipa')
            (s2Index info.lookupLevel (ipa / 4096 * 4096)) ↔
              ipa' % 2 ^ reachBits info / 4096 = ipa / 4096 * 4096 % 2 ^ reachBits info / 4096 :=
          agree_iff_page hr.tree.level ipa' (ipa / 4096 * 4096)
        rw [Nat.mod_eq_of_lt hipa', hcut] at hiff
        rw [rangeIndex, hpage]
        exact hiff
      rw [guestWalk, guestWalk, hr.tree.rootPhys_eq, s2Walk_eq htree.level htree.tables.tree,
        s2Walk_eq htree.level hr.tree.tables.tree]
      split
      · next heq =>
        have hentry := (hw (s2Leaf ipa') (s2Leaf_zero _)).1 (fun i j hij hj => by omega) 0 Nat.one_pos
        have hdiv : ipa / 4096 * 4096 / 2 ^ 12 = ipa / 4096 := Nat.mul_div_cancel _ (by decide)
        rw [hpage, s2Leaf_address, hdiv] at hentry
        rw [lookup_congr (hagree.mpr heq)]
        exact hentry
      · next hne =>
        refine (hw (s2Leaf ipa') (s2Leaf_zero _)).2 _ fun i hi hag => hne ?_
        obtain rfl : i = 0 := Nat.lt_one_iff.mp hi
        exact hagree.mp hag

/-- A handled fault keeps the tree and the image's page. -/
theorem fault_keeps (hr : Running L info h q 0) (he : MapsEntry L info h)
    (hipa : ipa < 2 ^ reachBits info) {b : Bool}
    (hrun : mapStage2Page L info (vcpuRegions cfg) ipa h = .ok b h') :
    Running L info h' q 0 ∧ MapsEntry L info h' := by
  have hbits := pow_bits_le (reachBits_le info)
  rcases fault_walks hr (Nat.lt_trans (Nat.lt_of_lt_of_le hipa hbits) (by decide)) hrun with
    ⟨-, rfl⟩ | ⟨mem, -, hr', hw⟩
  · exact ⟨hr, he⟩
  · have hlt : entryAddr < 2 ^ reachBits info :=
      Nat.lt_of_lt_of_le (by decide) (pow_bits_le hr.reach)
    have hentry := hw entryAddr hlt
    rw [Nat.mod_eq_of_lt hipa] at hentry
    refine ⟨hr', ?_⟩
    split at hentry
    · next hpage =>
      have hsame : ipa / 4096 % 2 ^ 36 * 4096 + entryAddr % 4096 = entryAddr := by
        rw [← hpage]
        decide
      rw [hsame] at hentry
      exact ⟨_, hentry⟩
    · obtain ⟨a, hold⟩ := he
      exact ⟨a, hentry.trans hold⟩

/-- A handled sequence of faults keeps them. -/
theorem faults_keep {ipas : List Nat} (hr : Running L info h q 0) (he : MapsEntry L info h)
    (hipas : ∀ ipa ∈ ipas, ipa < 2 ^ reachBits info)
    (hrun : handleFaults L info (vcpuRegions cfg) ipas h = .ok () h') :
    Running L info h' q 0 ∧ MapsEntry L info h' := by
  induction ipas generalizing h with
  | nil =>
    cases hrun
    exact ⟨hr, he⟩
  | cons ipa ipas ih =>
    obtain ⟨b, h₁, hone, hrest⟩ := bind_eq_ok hrun
    obtain ⟨hr₁, he₁⟩ := fault_keeps hr he (hipas ipa List.mem_cons_self) hone
    exact ih hr₁ he₁ (fun i hi => hipas i (List.mem_cons_of_mem _ hi)) hrest

end

/-- For every configuration and every PARange that boots: after allocations of at most
`2 ^ 13` pages, boot ends with a guest that maps the hypervisor's image, and so does
every run of handled faults below the reach of the table's indices. -/
theorem guest_maps_image (L : HyperImage) (cfg : HyperConfig) {code : Fin 8}
    (hc : code ≠ 3 ∧ code ≠ 7) {n : Nat} {h : Host} (ha : Allocated n h.bitmap) (hn : n ≤ 2 ^ 13) :
    ∃ info h₁, enableStage2Traslation L.toLayout cfg code h = .ok info h₁ ∧
      ¬ Isolated L.toLayout info h₁ ∧
      ∀ ipas h₂, (∀ ipa ∈ ipas, ipa < 2 ^ reachBits info) →
        handleFaults L.toLayout info (vcpuRegions cfg) ipas h₁ = .ok () h₂ →
        ¬ Isolated L.toLayout info h₂ := by
  have hfree : ∀ m, 2 ^ 13 ≤ m → m < totalPages → bit h.bitmap m = false :=
    fun m hm hlt => ha.fresh.2 (Nat.le_trans hn (by decide)) m (Nat.le_trans hn hm) hlt
  obtain ⟨info, h₁, q, hrun, hr, he⟩ := boot_maps_entry L.toLayout cfg hc hfree
  refine ⟨info, h₁, hrun, he.not_isolated, fun ipas h₂ hipas hfaults => ?_⟩
  exact (faults_keep hr he hipas hfaults).2.not_isolated

/-- An image that ends at 0x40300000, at its place. -/
def hyperImage : HyperImage := ⟨imageLayout, by decide⟩

/-- The default configuration of the QEMU board. -/
def qemuConfig : HyperConfig where
  uartEnabled := true
  uartGuestBase := 0x09000000
  uartGuestSize := 0x1000
  gicdBase := 0x08000000
  gicrBase := 0x080A0000
  gicrSize := 0x00F60000
  memoryBase := 0x40000000
  memorySize := 0x20000000

/-- After boot from a fresh allocator the guest holds the image. -/
theorem guest_maps_image_qemu :
    ∃ info h₁, enableStage2Traslation imageLayout qemuConfig 5 (clearHost initPageAllocator) =
        .ok info h₁ ∧ ¬ Isolated imageLayout info h₁ := by
  obtain ⟨info, h₁, hrun, hno, -⟩ := @guest_maps_image hyperImage qemuConfig 5
    (by decide) 0 (clearHost initPageAllocator) .init (by decide)
  exact ⟨info, h₁, hrun, hno⟩

/-- The same, as the failing boot. -/
theorem boot_not_isolated :
    ¬ ∀ info h₁, enableStage2Traslation imageLayout qemuConfig 5 (clearHost initPageAllocator) =
      .ok info h₁ → Isolated imageLayout info h₁ := by
  intro hiso
  obtain ⟨info, h₁, q, hrun, -, he⟩ := @boot_maps_entry imageLayout qemuConfig 5
    (by decide) (clearHost initPageAllocator) fun m _ _ => bit_initBitmap m
  exact MapsEntry.not_isolated (L := hyperImage) he (hiso info h₁ hrun)

end HyperCore.AArch64
