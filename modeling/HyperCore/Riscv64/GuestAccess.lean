import HyperCore.Lib.ReadLog
import HyperCore.Core.ArchPage

/-!
# Reads on the guest's behalf

Three functions dereference addresses that the guest chooses: `guest_va_to_pa` walks the guest's
page tables, `guest_read_u64_va` reads the hart mask of a legacy SBI call, and `vcpu_fetch_inst`
reads the instruction of an MMIO trap. Each goes through `phy_to_vir` and none looks at the
guest's memory regions.

`guest_reads_inside` says when what a trap dereferences is guest RAM: when the guest's own page
tables, the bytes they map the mask to, and the instruction are there.
-/

namespace HyperCore.Riscv64

open ArchPage ReadLog

/-! ## The hypervisor's view of memory -/

/-- The host page table of `init_mm`: the image, the UART, the PLIC, and the direct mapping. -/
def hostVaToPa (L : Layout) (v : Nat) : Option Nat :=
  if 0x80000000 ≤ v ∧ v < 0x82000000 ∨ 0x10000000 ≤ v ∧ v < 0x10001000 ∨
      0x0c000000 ≤ v ∧ v < 0x0c400000 then some v
  else if pageVirtOffset ≤ v ∧ v < pageVirtOffset + directMappingSize then
    some (L.pagePhysOffset + (v - pageVirtOffset))
  else none

/-- The bytes that the hypervisor sees, over the contents of physical memory. -/
def view (L : Layout) (mem : Nat → BitVec 8) (v : Nat) : Option (BitVec 8) :=
  (hostVaToPa L v).map mem

/-- `[guest_ram_base, guest_ram_base + guest_ram_size)` -/
structure GuestRam where
  base : Nat
  size : Nat

/-- The host address `v` is a byte of guest RAM. -/
def GuestRam.Holds (R : GuestRam) (L : Layout) (v : Nat) : Prop :=
  ∃ pa, hostVaToPa L v = some pa ∧ R.base ≤ pa ∧ pa < R.base + R.size

theorem GuestRam.Holds.seen {R : GuestRam} {L : Layout} {v : Nat} (h : R.Holds L v)
    (mem : Nat → BitVec 8) : (view L mem v).isSome := by
  obtain ⟨pa, hpa, -⟩ := h
  rw [view, hpa]
  rfl

/-! ## `guest_va_to_pa` -/

def satpModeOff : BitVec 64 := 0
def satpModeSv39 : BitVec 64 := 8
def satpModeSv48 : BitVec 64 := 9

/-- `SATP_PPN_MASK` and `PTE_PPN_MASK` -/
def ppnMask : BitVec 64 := (1#64 <<< 44) - 1

/-- Neither valid nor one of the reserved forms that write but do not read. -/
def pteInvalid (bits : BitVec 64) : Bool :=
  !bits.getLsbD 0 || (bits.getLsbD 2 && !bits.getLsbD 1)

/-- `PTE_R | PTE_X` -/
def pteLeaf (bits : BitVec 64) : Bool := bits.getLsbD 1 || bits.getLsbD 3

/-- The table or page that an entry points to. -/
def pteTarget (bits : BitVec 64) : BitVec 64 := ((bits >>> 10) &&& ppnMask) <<< 12

/-- The address that a leaf of `level` gives to `va`. -/
def pteAddress (bits va : BitVec 64) (level : Nat) : BitVec 64 :=
  pteTarget bits ||| (va &&& ((1#64 <<< (12 + 9 * level)) - 1))

/-- `&table[idx]` -/
def pteAddr (L : Layout) (va tablePa : BitVec 64) (level : Nat) : Nat :=
  L.phyToVir tablePa.toNat + 8 * ((va >>> (12 + 9 * level)) &&& 0x1ff).toNat

/-- The loop of `guest_va_to_pa`, with the levels still to go. -/
def walkFrom (L : Layout) (mem : Nat → BitVec 8) (va tablePa : BitVec 64) :
    Nat → Reads (Option (BitVec 64))
  | 0 => pure none
  | level + 1 => do
    let bits ← load (view L mem) (pteAddr L va tablePa level) 8
    if pteInvalid bits then pure none
    else if pteLeaf bits then pure (some (pteAddress bits va level))
    else walkFrom L mem va (pteTarget bits) level

/-- The number of levels of the mode of `satp`. -/
def satpLevels (satp : BitVec 64) : Option Nat :=
  if satp >>> 60 = satpModeSv39 then some 3
  else if satp >>> 60 = satpModeSv48 then some 4
  else none

/-- `table_pa` of the root. -/
def satpRoot (satp : BitVec 64) : BitVec 64 := (satp &&& ppnMask) <<< 12

def guestVaToPa (L : Layout) (mem : Nat → BitVec 8) (satp va : BitVec 64) :
    Reads (Option (BitVec 64)) :=
  if satp >>> 60 = satpModeOff then pure (some va)
  else
    match satpLevels satp with
    | some levels => walkFrom L mem va (satpRoot satp) levels
    | none => pure none

/-! ## `guest_read_u64_va` -/

/-- The loop, from byte `i` on with `v` read so far. -/
def readFrom (L : Layout) (mem : Nat → BitVec 8) (satp va : BitVec 64) (i : Nat) (v : BitVec 64) :
    Nat → Reads (Option (BitVec 64))
  | 0 => pure (some v)
  | n + 1 => do
    match ← guestVaToPa L mem satp (va + BitVec.ofNat 64 i) with
    | none => pure none
    | some pa => do
      let b ← deref (view L mem) (L.phyToVir pa.toNat)
      readFrom L mem satp va (i + 1) (v ||| b.setWidth 64 <<< (8 * i)) n

def guestReadU64Va (L : Layout) (mem : Nat → BitVec 8) (satp va : BitVec 64) :
    Reads (Option (BitVec 64)) :=
  readFrom L mem satp va 0 0 8

/-! ## `vcpu_fetch_inst` -/

/-- `INSN_IS_16BIT` -/
def insnIs16Bit (inst : BitVec 32) : Bool := inst &&& 3 != 3

def vcpuFetchInst (L : Layout) (mem : Nat → BitVec 8) (sepc htinst : BitVec 64) :
    Reads (BitVec 32) :=
  if pageVirtOffset ≤ sepc.toNat ∧ htinst.setWidth 32 ≠ 0#32 then pure (htinst.setWidth 32)
  else do
    let p := L.phyToVir sepc.toNat
    let low ← load (view L mem) p 2
    let inst : BitVec 32 := low.setWidth 32
    if insnIs16Bit inst then pure inst
    else do
      let high ← load (view L mem) (MachineInt.toUInt64 (p + 2)) 2
      pure (inst ||| high.setWidth 32 <<< 16)

/-! ## Traps -/

/-- The traps that reach the three functions. -/
inductive GuestTrap
  | ecall (a0 a7 : BitVec 64)
  | mmio (sepc htinst : BitVec 64)

def sbiExt01SendIpi : BitVec 64 := 4
def sbiExt01RemoteFenceI : BitVec 64 := 5
def sbiExt01RemoteSfenceVma : BitVec 64 := 6
def sbiExt01RemoteSfenceVmaAsid : BitVec 64 := 7

/-- The mask of `handle_legacy_send_ipi` and `handle_legacy_remote_fence`, for `count` vCPUs. -/
def legacyMask (L : Layout) (mem : Nat → BitVec 8) (satp : BitVec 64) (count : Nat)
    (a0 : BitVec 64) : Reads (Option (BitVec 64)) :=
  if a0 = 0 then pure (some (if 64 ≤ count then ~~~0#64 else (1#64 <<< count) - 1))
  else guestReadU64Va L mem satp a0

/-- The extensions of `riscv_sbi_handle_vs_ecall` that read a mask. -/
def readsMask (a7 : BitVec 64) : Bool :=
  a7 == sbiExt01SendIpi || a7 == sbiExt01RemoteFenceI || a7 == sbiExt01RemoteSfenceVma ||
    a7 == sbiExt01RemoteSfenceVmaAsid

/-- What the handler of a trap dereferences. -/
def GuestTrap.touched (L : Layout) (mem : Nat → BitVec 8) (satp : BitVec 64) (count : Nat) :
    GuestTrap → List Nat
  | .ecall a0 a7 => if readsMask a7 then (legacyMask L mem satp count a0).touched else []
  | .mmio sepc htinst => (vcpuFetchInst L mem sepc htinst).touched

/-! ## The guest's page tables -/

/-- The entry that the tables hold for `va` in the table at `tablePa`. -/
def pteOf (L : Layout) (mem : Nat → BitVec 8) (va tablePa : BitVec 64) (level : Nat) : BitVec 64 :=
  word (view L mem) (pteAddr L va tablePa level) 8

/-- `Leads va t n t' n'`: the tables that start at `t` with `n` levels to go lead `va` to the table
`t'` with `n'` levels to go. -/
inductive Leads (L : Layout) (mem : Nat → BitVec 8) (va : BitVec 64) :
    BitVec 64 → Nat → BitVec 64 → Nat → Prop
  | here (t : BitVec 64) (n : Nat) : Leads L mem va t n t n
  | down {t t' : BitVec 64} {n n' : Nat} : pteInvalid (pteOf L mem va t n) = false →
      pteLeaf (pteOf L mem va t n) = false →
      Leads L mem va (pteTarget (pteOf L mem va t n)) n t' n' → Leads L mem va t (n + 1) t' n'

/-- The tables at `t` map `va` to `pa`. -/
def MapsFrom (L : Layout) (mem : Nat → BitVec 8) (va t : BitVec 64) (n : Nat) (pa : BitVec 64) :
    Prop :=
  ∃ t' level, Leads L mem va t n t' (level + 1) ∧ pteInvalid (pteOf L mem va t' level) = false ∧
    pteLeaf (pteOf L mem va t' level) = true ∧ pa = pteAddress (pteOf L mem va t' level) va level

/-- `va` is the address `pa` for a guest with this `vsatp`. -/
def MapsTo (L : Layout) (mem : Nat → BitVec 8) (satp va pa : BitVec 64) : Prop :=
  satp >>> 60 = satpModeOff ∧ pa = va ∨
    ∃ levels, satpLevels satp = some levels ∧ MapsFrom L mem va (satpRoot satp) levels pa

/-- Each entry on the way of `va` is in guest RAM. -/
def TablesInside (R : GuestRam) (L : Layout) (mem : Nat → BitVec 8) (satp va : BitVec 64) : Prop :=
  ∀ levels t level, satpLevels satp = some levels →
    Leads L mem va (satpRoot satp) levels t (level + 1) →
    ∀ k, k < 8 → R.Holds L (pteAddr L va t level + k)

/-- The byte at `va` is in guest RAM, as are the entries that map it. -/
def ByteInside (R : GuestRam) (L : Layout) (mem : Nat → BitVec 8) (satp va : BitVec 64) : Prop :=
  TablesInside R L mem satp va ∧ ∀ pa, MapsTo L mem satp va pa → R.Holds L (L.phyToVir pa.toNat)

/-- Each byte of the word at `va` is in guest RAM, as far as the bytes before it are mapped. -/
def WordInside (R : GuestRam) (L : Layout) (mem : Nat → BitVec 8) (satp va : BitVec 64) : Prop :=
  ∀ i, i < 8 → (∀ j, j < i → ∃ pa, MapsTo L mem satp (va + BitVec.ofNat 64 j) pa) →
    ByteInside R L mem satp (va + BitVec.ofNat 64 i)

/-- The instruction at `sepc` is in guest RAM. -/
def InstInside (R : GuestRam) (L : Layout) (mem : Nat → BitVec 8) (sepc : BitVec 64) : Prop :=
  (∀ k, k < 2 → R.Holds L (L.phyToVir sepc.toNat + k)) ∧
    (insnIs16Bit ((word (view L mem) (L.phyToVir sepc.toNat) 2).setWidth 32) = false →
      ∀ k, k < 2 → R.Holds L (MachineInt.toUInt64 (L.phyToVir sepc.toNat + 2) + k))

/-- What the trap makes the hypervisor read on the guest's behalf is in guest RAM. -/
def GuestTrap.Inside (R : GuestRam) (L : Layout) (mem : Nat → BitVec 8) (satp : BitVec 64) :
    GuestTrap → Prop
  | .ecall a0 a7 => readsMask a7 = true → a0 ≠ 0 → WordInside R L mem satp a0
  | .mmio sepc htinst => sepc.toNat < pageVirtOffset ∨ htinst.setWidth 32 = 0#32 →
      InstInside R L mem sepc

/-! ## The walk -/

section

variable {R : GuestRam} {L : Layout} {mem : Nat → BitVec 8} {satp va t t' pa : BitVec 64}
  {n level : Nat}

theorem within_loadView {v : Nat} : (load (view L mem) v n).Within (R.Holds L) ↔
    ∀ k, k < n → R.Holds L (v + k) :=
  within_load fun _ hv => hv.seen mem

theorem result_loadView {v : Nat} (h : (load (view L mem) v n).Within (R.Holds L)) :
    (load (view L mem) v n).result = some (word (view L mem) v n) :=
  result_load fun k hk => (within_loadView.1 h k hk).seen mem

theorem leads_succ : Leads L mem va t (n + 1) t' (level + 1) ↔ (t' = t ∧ level = n) ∨
    (pteInvalid (pteOf L mem va t n) = false ∧ pteLeaf (pteOf L mem va t n) = false ∧
      Leads L mem va (pteTarget (pteOf L mem va t n)) n t' (level + 1)) := by
  constructor
  · intro h
    cases h with
    | here => exact .inl ⟨rfl, rfl⟩
    | down hvalid hleaf hrest => exact .inr ⟨hvalid, hleaf, hrest⟩
  · rintro (⟨rfl, rfl⟩ | ⟨hvalid, hleaf, hrest⟩)
    · exact .here _ _
    · exact .down hvalid hleaf hrest

theorem not_leads_zero : ¬ Leads L mem va t 0 t' (level + 1) := by
  intro h
  cases h

/-- The walk of `guest_va_to_pa` reads the entries on the way of `va`. -/
theorem walkFrom_inside : (walkFrom L mem va t n).Within (R.Holds L) ↔
    ∀ t' level, Leads L mem va t n t' (level + 1) →
      ∀ k, k < 8 → R.Holds L (pteAddr L va t' level + k) := by
  induction n generalizing t with
  | zero => exact iff_of_true (within_pure none) fun t' level h => absurd h not_leads_zero
  | succ n ih =>
    rw [walkFrom, within_bind_of result_loadView, within_loadView]
    constructor
    · rintro ⟨hentry, hrest⟩ t' level hleads
      rcases leads_succ.1 hleads with ⟨rfl, rfl⟩ | ⟨hvalid, hleaf, hnext⟩
      · exact hentry
      · rw [if_neg (by rw [← pteOf, hvalid]; decide), if_neg (by rw [← pteOf, hleaf]; decide),
          ih] at hrest
        exact hrest t' level hnext
    · intro h
      refine ⟨h t n (.here _ _), ?_⟩
      split
      · exact within_pure _
      split
      · exact within_pure _
      · next hvalid hleaf =>
        rw [ih]
        exact fun t' level hnext => h t' level (.down (Bool.eq_false_of_not_eq_true hvalid)
          (Bool.eq_false_of_not_eq_true hleaf) hnext)

theorem mapsFrom_succ : MapsFrom L mem va t (n + 1) pa ↔
    pteInvalid (pteOf L mem va t n) = false ∧
      if pteLeaf (pteOf L mem va t n) then pa = pteAddress (pteOf L mem va t n) va n
      else MapsFrom L mem va (pteTarget (pteOf L mem va t n)) n pa := by
  constructor
  · rintro ⟨t', level, hleads, hvalid, hleaf, hpa⟩
    rcases leads_succ.1 hleads with ⟨rfl, rfl⟩ | ⟨hvalid', hleaf', hnext⟩
    · exact ⟨hvalid, by rw [if_pos hleaf]; exact hpa⟩
    · rw [hleaf']
      exact ⟨hvalid', t', level, hnext, hvalid, hleaf, hpa⟩
  · rintro ⟨hvalid, hrest⟩
    split at hrest
    · next hleaf => exact ⟨t, n, .here _ _, hvalid, hleaf, hrest⟩
    · next hleaf =>
      obtain ⟨t', level, hnext, hmaps⟩ := hrest
      exact ⟨t', level, .down hvalid (Bool.eq_false_of_not_eq_true hleaf) hnext, hmaps⟩

/-- Where the walk stays in guest RAM, its result is what the tables map `va` to. -/
theorem walkFrom_result (h : (walkFrom L mem va t n).Within (R.Holds L)) :
    ∃ r, (walkFrom L mem va t n).result = some r ∧
      ∀ pa, r = some pa ↔ MapsFrom L mem va t n pa := by
  induction n generalizing t with
  | zero =>
    refine ⟨none, rfl, fun pa => iff_of_false (by simp) ?_⟩
    rintro ⟨t', level, hleads, -⟩
    exact not_leads_zero hleads
  | succ n ih =>
    rw [walkFrom, within_bind_of result_loadView] at h
    obtain ⟨hentry, hrest⟩ := h
    rw [walkFrom, result_bind (result_loadView hentry)]
    rw [← pteOf] at hrest ⊢
    simp only [mapsFrom_succ]
    cases hinvalid : pteInvalid (pteOf L mem va t n) with
    | true => exact ⟨none, rfl, fun pa => by simp⟩
    | false =>
      cases hleaf : pteLeaf (pteOf L mem va t n) with
      | true => exact ⟨_, rfl, fun pa => by simp [eq_comm]⟩
      | false =>
        rw [hinvalid, hleaf] at hrest
        obtain ⟨r, hres, hr⟩ := ih hrest
        exact ⟨r, hres, fun pa => by rw [hr pa]; simp⟩

/-! ## The three functions -/

theorem guestVaToPa_inside :
    (guestVaToPa L mem satp va).Within (R.Holds L) ↔ TablesInside R L mem satp va := by
  unfold guestVaToPa TablesInside
  split
  · next hoff =>
    have hnone : satpLevels satp = none := by
      rw [satpLevels, hoff, if_neg (by decide), if_neg (by decide)]
    exact iff_of_true (within_pure _) fun levels t level hlevels => by
      rw [hnone] at hlevels
      cases hlevels
  split
  · next levels hlevels =>
    rw [walkFrom_inside]
    constructor
    · intro h levels' t level hlevels'
      rw [hlevels] at hlevels'
      cases hlevels'
      exact h t level
    · intro h t level
      exact h levels t level hlevels
  · next hnone =>
    exact iff_of_true (within_pure _) fun levels t level hlevels => by
      rw [hnone] at hlevels
      cases hlevels

theorem guestVaToPa_result (h : TablesInside R L mem satp va) :
    ∃ r, (guestVaToPa L mem satp va).result = some r ∧
      ∀ pa, r = some pa ↔ MapsTo L mem satp va pa := by
  rw [← guestVaToPa_inside] at h
  unfold guestVaToPa at h ⊢
  unfold MapsTo
  split at h
  · next hoff =>
    have hnone : satpLevels satp = none := by
      rw [satpLevels, hoff, if_neg (by decide), if_neg (by decide)]
    exact ⟨some va, by rw [if_pos hoff]; rfl, fun pa => by simp [hnone, hoff, eq_comm]⟩
  · next hoff =>
    rw [if_neg hoff]
    cases hlevels : satpLevels satp with
    | none => exact ⟨none, rfl, fun pa => by simp [hoff]⟩
    | some levels =>
      rw [hlevels] at h
      obtain ⟨r, hres, hr⟩ := walkFrom_result h
      exact ⟨r, hres, fun pa => by rw [hr pa]; simp [hoff]⟩

/-- A condition on each index, as far as `M` holds of the ones before it. -/
theorem forall_before_succ {P M : Nat → Prop} {i n : Nat} :
    (∀ j, i ≤ j → j < i + (n + 1) → (∀ k, i ≤ k → k < j → M k) → P j) ↔
      P i ∧ (M i → ∀ j, i + 1 ≤ j → j < i + 1 + n → (∀ k, i + 1 ≤ k → k < j → M k) → P j) := by
  constructor
  · intro h
    refine ⟨h i (Nat.le_refl i) (by omega) fun k hik hki => absurd hki (Nat.not_lt.mpr hik),
      fun hi j hij hj hbefore => h j (by omega) (by omega) fun k hik hkj => ?_⟩
    rcases Nat.eq_or_lt_of_le hik with rfl | hlt
    · exact hi
    · exact hbefore k hlt hkj
  · rintro ⟨hi, hrest⟩ j hij hj hbefore
    rcases Nat.eq_or_lt_of_le hij with rfl | hlt
    · exact hi
    · exact hrest (hbefore i (Nat.le_refl i) hlt) j hlt (by omega)
        fun k hik hkj => hbefore k (by omega) hkj

theorem readFrom_inside {i : Nat} {v : BitVec 64} :
    (readFrom L mem satp va i v n).Within (R.Holds L) ↔ ∀ j, i ≤ j → j < i + n →
      (∀ k, i ≤ k → k < j → ∃ pa, MapsTo L mem satp (va + BitVec.ofNat 64 k) pa) →
      ByteInside R L mem satp (va + BitVec.ofNat 64 j) := by
  induction n generalizing i v with
  | zero => exact iff_of_true (within_pure _) fun j hij hj => absurd hj (by omega)
  | succ n ih =>
    rw [forall_before_succ, readFrom, within_bind, guestVaToPa_inside, ByteInside, and_assoc]
    refine and_congr_right fun htables => ?_
    obtain ⟨r, hres, hr⟩ := guestVaToPa_result htables
    simp only [hres, Option.some.injEq, forall_eq', ← hr]
    cases r with
    | none => simp
    | some pa =>
      have hview (hb : R.Holds L (L.phyToVir pa.toNat)) :
          ∃ b, (deref (view L mem) (L.phyToVir pa.toNat)).result = some b :=
        Option.isSome_iff_exists.mp (hb.seen mem)
      simp only [Option.some.injEq, forall_eq', exists_eq', forall_const]
      rw [within_bind, within_deref]
      refine and_congr_right fun hb => ?_
      obtain ⟨b, hb⟩ := hview hb
      simp only [hb, Option.some.injEq, forall_eq']
      exact ih

theorem guestReadU64Va_inside :
    (guestReadU64Va L mem satp va).Within (R.Holds L) ↔ WordInside R L mem satp va := by
  rw [guestReadU64Va, readFrom_inside]
  simp [WordInside]

theorem vcpuFetchInst_inside {sepc htinst : BitVec 64} :
    (vcpuFetchInst L mem sepc htinst).Within (R.Holds L) ↔
      (sepc.toNat < pageVirtOffset ∨ htinst.setWidth 32 = 0#32 → InstInside R L mem sepc) := by
  unfold vcpuFetchInst
  split
  · next htinst =>
    refine iff_of_true (within_pure _) ?_
    rintro (hlow | hzero)
    · exact absurd htinst.1 (Nat.not_le.mpr hlow)
    · exact absurd hzero htinst.2
  · next hfetch =>
    have hreads : sepc.toNat < pageVirtOffset ∨ htinst.setWidth 32 = 0#32 := by
      rwa [not_and_or, not_le, not_not] at hfetch
    rw [imp_iff_right hreads, InstInside]
    simp only
    rw [within_bind_of result_loadView, within_loadView]
    refine and_congr_right fun _ => ?_
    split
    · next h16 => exact iff_of_true (within_pure _) fun h => by simp [h16] at h
    · next h16 =>
      rw [imp_iff_right (Bool.eq_false_of_not_eq_true h16), within_bind_of result_loadView,
        within_loadView]
      exact and_iff_left (within_pure _)

/-! ## Faults -/

/-- All of physical memory. -/
def allMemory : GuestRam := ⟨0, 2 ^ 64⟩

theorem hostVaToPa_lt {v pa : Nat} (h : hostVaToPa L v = some pa) : pa < 2 ^ 64 := by
  have hoff := L.pagePhysOffset_lt
  unfold hostVaToPa at h
  split at h
  · have := Option.some.inj h
    omega
  · split at h
    · have := Option.some.inj h
      simp only [pageVirtOffset, directMappingSize] at *
      omega
    · cases h

theorem allMemory_holds {v : Nat} : allMemory.Holds L v ↔ (view L mem v).isSome := by
  rw [view, Option.isSome_map, Option.isSome_iff_exists]
  unfold GuestRam.Holds
  simp only [allMemory, Nat.zero_add]
  refine exists_congr fun pa => and_iff_left_of_imp fun hpa => ⟨Nat.zero_le pa, hostVaToPa_lt hpa⟩

theorem honest_walkFrom (t : BitVec 64) (n : Nat) :
    (walkFrom L mem va t n).Honest (view L mem) := by
  induction n generalizing t with
  | zero => exact honest_pure none
  | succ n ih =>
    exact (honest_load _ _).bind fun _ => (honest_pure _).ite ((honest_pure _).ite (ih _))

theorem honest_guestVaToPa (va : BitVec 64) :
    (guestVaToPa L mem satp va).Honest (view L mem) := by
  refine (honest_pure _).ite ?_
  split
  · exact honest_walkFrom _ _
  · exact honest_pure none

theorem honest_readFrom (i : Nat) (v : BitVec 64) :
    (readFrom L mem satp va i v n).Honest (view L mem) := by
  induction n generalizing i v with
  | zero => exact honest_pure _
  | succ n ih =>
    refine (honest_guestVaToPa _).bind fun r => ?_
    cases r with
    | none => exact honest_pure none
    | some pa => exact (honest_deref _).bind fun _ => ih _ _

theorem honest_legacyMask (count : Nat) (a0 : BitVec 64) :
    (legacyMask L mem satp count a0).Honest (view L mem) :=
  (honest_pure _).ite (honest_readFrom _ _)

theorem honest_vcpuFetchInst (sepc htinst : BitVec 64) :
    (vcpuFetchInst L mem sepc htinst).Honest (view L mem) :=
  (honest_pure _).ite ((honest_load _ _).bind fun _ =>
    (honest_pure _).ite ((honest_load _ _).bind fun _ => honest_pure _))

theorem within_allMemory {α : Type} {m : Reads α} (hm : m.Honest (view L mem)) :
    m.result.isSome ↔ m.Within (allMemory.Holds L) := by
  refine hm.trans ?_
  exact forall₂_congr fun v _ => allMemory_holds.symm

/-- The mask is read exactly where its bytes, as far as the guest maps them, and the entries that
map them are mapped in the hypervisor. -/
theorem legacyMask_returns {count : Nat} {a0 : BitVec 64} :
    (legacyMask L mem satp count a0).result.isSome ↔
      (a0 ≠ 0 → WordInside allMemory L mem satp a0) := by
  rw [within_allMemory (honest_legacyMask count a0), legacyMask]
  split
  · next hzero => exact iff_of_true (within_pure _) fun h => absurd hzero h
  · next hne =>
    rw [imp_iff_right hne]
    exact guestReadU64Va_inside

/-- The instruction is fetched exactly where it comes from `htinst` or its bytes are mapped. -/
theorem vcpuFetchInst_returns {sepc htinst : BitVec 64} :
    (vcpuFetchInst L mem sepc htinst).result.isSome ↔
      (sepc.toNat < pageVirtOffset ∨ htinst.setWidth 32 = 0#32 → InstInside allMemory L mem sepc) := by
  rw [within_allMemory (honest_vcpuFetchInst sepc htinst)]
  exact vcpuFetchInst_inside

end

/-! ## Reads inside guest RAM -/

/-- What a trap dereferences is guest RAM iff the guest's tables, mask and instruction are. -/
theorem guest_reads_inside (L : Layout) (R : GuestRam) (mem : Nat → BitVec 8)
    (satp : BitVec 64) (count : Nat) (trap : GuestTrap) :
    (∀ v ∈ trap.touched L mem satp count, R.Holds L v) ↔ trap.Inside R L mem satp := by
  cases trap with
  | ecall a0 a7 =>
    simp only [GuestTrap.touched, GuestTrap.Inside]
    split
    · next hreads =>
      rw [imp_iff_right hreads, legacyMask]
      split
      · next hzero => exact iff_of_true (within_pure _) fun h => absurd hzero h
      · next hne =>
        rw [imp_iff_right hne]
        exact guestReadU64Va_inside
    · next hnone => exact iff_of_true (fun v hv => by cases hv) fun h => absurd h hnone
  | mmio sepc htinst => exact vcpuFetchInst_inside

/-- A guest with its MMU off sends an IPI with its mask in the hypervisor's image. -/
theorem image_read : ¬ ∀ (L : Layout) (R : GuestRam) (mem : Nat → BitVec 8) (satp : BitVec 64)
    (count : Nat) (trap : GuestTrap), ∀ v ∈ trap.touched L mem satp count, R.Holds L v := by
  intro h
  have himage := h ⟨0x80400000, by decide⟩ ⟨0x90000000, 0x8000000⟩ (fun _ => 0) 0 1
    (.ecall 0x80200000 sbiExt01SendIpi) 0x80200000 (by decide +kernel)
  obtain ⟨pa, hpa, hbase, -⟩ := himage
  have hid : hostVaToPa ⟨0x80400000, by decide⟩ 0x80200000 = some 0x80200000 := by decide
  rw [hid] at hpa
  cases hpa
  exact absurd hbase (by decide)

end HyperCore.Riscv64
