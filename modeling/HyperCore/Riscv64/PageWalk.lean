import HyperCore.Lib.RvPaging
import HyperCore.Riscv64.GuestAccess

/-!
# The walk of the guest's page tables

`guest_va_to_pa` against the architecture's walk. The loop takes the same entries in the same order,
but it looks at bits 0 to 3 and at the page number only. So what it maps is what the architecture
maps where the address is canonical and the entries on its way keep their reserved bits clear and
their pages aligned (`guestVaToPa_iff`); anything else that leads to a leaf is mapped as well.
-/

namespace HyperCore.Riscv64

open ArchPage ReadLog

/-- The guest's memory by physical address, as far as the hypervisor maps it. -/
def guestMem (L : Layout) (mem : Nat → BitVec 8) (pa : Nat) : Option (BitVec 8) :=
  view L mem (L.phyToVir pa)

/-- What an entry has to keep to besides being valid. -/
def EntryKeeps (bits : BitVec 64) (level : Nat) : Prop :=
  RvPaging.reserved bits = false ∧ (pteLeaf bits = true → RvPaging.aligned bits level = true)

/-- Each entry on the way of `va` keeps to the format. -/
def KeepsFrom (L : Layout) (mem : Nat → BitVec 8) (va t : BitVec 64) (n : Nat) : Prop :=
  ∀ t' level, Leads L mem va t n t' (level + 1) → EntryKeeps (pteOf L mem va t' level) level

/-- The tables lead `va` to a valid leaf. -/
def LeafFrom (L : Layout) (mem : Nat → BitVec 8) (va t : BitVec 64) (n : Nat) : Prop :=
  ∃ t' level, Leads L mem va t n t' (level + 1) ∧ pteInvalid (pteOf L mem va t' level) = false ∧
    pteLeaf (pteOf L mem va t' level) = true

/-- Where the tables lead `va` to a leaf, `va` is canonical and the entries keep to the format. -/
def Conforms (L : Layout) (mem : Nat → BitVec 8) (satp va : BitVec 64) : Prop :=
  ∀ levels, satpLevels satp = some levels → LeafFrom L mem va (satpRoot satp) levels →
    RvPaging.Canonical levels va ∧ KeepsFrom L mem va (satpRoot satp) levels

/-! ## Addresses -/

section

variable {L : Layout} {mem : Nat → BitVec 8} {satp va t pa bits value : BitVec 64}
  {n level v : Nat}

/-- In the range of a page number the hypervisor maps an address to itself or not at all. -/
theorem guestMem_physical {a : Nat} {b : BitVec 8} (ha : a < 2 ^ 56)
    (h : guestMem L mem a = some b) : b = mem a := by
  obtain ⟨p, hp, hb⟩ := Option.map_eq_some_iff.mp h
  have hoff := L.pagePhysOffset_lt
  have hsame : p = a := by
    unfold hostVaToPa Layout.phyToVir MachineInt.toUInt64 at hp
    simp only [pageVirtOffset, directMappingSize] at hp
    split at hp
    · split at hp
      · exact (Option.some.inj hp).symm
      · split at hp
        · omega
        · cases hp
    · split at hp
      · omega
      · split at hp
        · have := Option.some.inj hp
          omega
        · cases hp
  rw [← hb, hsame]

theorem phyToVir_page {a j : Nat} (ha : a % 4096 = 0) (hlt : a < 2 ^ 56) (hj : j < 4096) :
    L.phyToVir (a + j) = L.phyToVir a + j := by
  have hmod := L.pagePhysOffset_mod
  have hoff := L.pagePhysOffset_lt
  unfold Layout.phyToVir MachineInt.toUInt64
  simp only [pageVirtOffset]
  split
  · rw [if_pos (by omega)]
  · rw [if_neg (by omega)]
    omega

theorem pteTarget_toNat : (pteTarget bits).toNat = RvPaging.ppn bits * 2 ^ 12 := by
  have hmask : ppnMask.toNat = 2 ^ 44 - 1 := by decide
  have hppn : bits.toNat / 2 ^ 10 % 2 ^ 44 < 2 ^ 44 := Nat.mod_lt _ (by decide)
  unfold pteTarget RvPaging.ppn
  rw [BitVec.toNat_shiftLeft, BitVec.toNat_and, BitVec.toNat_ushiftRight, hmask,
    Nat.and_two_pow_sub_one_eq_mod, Nat.shiftRight_eq_div_pow, Nat.shiftLeft_eq,
    Nat.mod_eq_of_lt (by omega)]

theorem satpRoot_toNat : (satpRoot satp).toNat = satp.toNat % 2 ^ 44 * 2 ^ 12 := by
  have hmask : ppnMask.toNat = 2 ^ 44 - 1 := by decide
  have hppn : satp.toNat % 2 ^ 44 < 2 ^ 44 := Nat.mod_lt _ (by decide)
  unfold satpRoot
  rw [BitVec.toNat_shiftLeft, BitVec.toNat_and, hmask, Nat.and_two_pow_sub_one_eq_mod,
    Nat.shiftLeft_eq, Nat.mod_eq_of_lt (by omega)]

theorem vpn_eq : ((va >>> (12 + 9 * level)) &&& 0x1ff).toNat = RvPaging.vpn va level := by
  have hmask : (0x1ff : BitVec 64).toNat = 2 ^ 9 - 1 := by decide
  unfold RvPaging.vpn
  rw [BitVec.toNat_and, BitVec.toNat_ushiftRight, hmask, Nat.and_two_pow_sub_one_eq_mod,
    Nat.shiftRight_eq_div_pow]

/-- An aligned leaf gives the address of its page and the offset in it. -/
theorem pteAddress_toNat (hlevel : level < 4) (h : RvPaging.aligned bits level = true) :
    (pteAddress bits va level).toNat =
      RvPaging.ppn bits * 2 ^ 12 + va.toNat % 2 ^ (12 + 9 * level) := by
  have hmask : ((1#64 <<< (12 + 9 * level)) - 1).toNat = 2 ^ (12 + 9 * level) - 1 := by
    rcases (by omega : level = 0 ∨ level = 1 ∨ level = 2 ∨ level = 3) with rfl | rfl | rfl | rfl <;>
      decide
  obtain ⟨page, hpage⟩ := Nat.dvd_of_mod_eq_zero (beq_iff_eq.mp h)
  have hbase : RvPaging.ppn bits * 2 ^ 12 = 2 ^ (12 + 9 * level) * page := by
    rw [hpage, Nat.pow_add]
    ring
  unfold pteAddress
  rw [BitVec.toNat_or, BitVec.toNat_and, hmask, Nat.and_two_pow_sub_one_eq_mod, pteTarget_toNat,
    hbase, Nat.two_pow_add_eq_or_of_lt (Nat.mod_lt _ (Nat.two_pow_pos _))]

/-! ## Entries -/

/-- A table is a page below 2^56. -/
def TableAddr (t : BitVec 64) : Prop := t.toNat % 4096 = 0 ∧ t.toNat < 2 ^ 56

theorem tableAddr_target : TableAddr (pteTarget bits) := by
  have hppn : bits.toNat / 2 ^ 10 % 2 ^ 44 < 2 ^ 44 := Nat.mod_lt _ (by decide)
  unfold TableAddr
  rw [pteTarget_toNat, RvPaging.ppn]
  omega

theorem tableAddr_root : TableAddr (satpRoot satp) := by
  have hppn : satp.toNat % 2 ^ 44 < 2 ^ 44 := Nat.mod_lt _ (by decide)
  unfold TableAddr
  rw [satpRoot_toNat]
  omega

/-- The entry that the architecture reads is the one the loop reads. -/
theorem load_entry (ht : TableAddr t) :
    (load (guestMem L mem) (t.toNat + 8 * RvPaging.vpn va level) 8).result =
      (load (view L mem) (pteAddr L va t level) 8).result := by
  have hvpn : RvPaging.vpn va level < 512 := Nat.mod_lt _ (by decide)
  refine load_congr fun k hk => ?_
  rw [guestMem, pteAddr, vpn_eq, Nat.add_assoc, phyToVir_page ht.1 ht.2 (by omega), Nat.add_assoc]

theorem hostVaToPa_isSome : (hostVaToPa L v).isSome ↔
    0x80000000 ≤ v ∧ v < 0x82000000 ∨ 0x10000000 ≤ v ∧ v < 0x10001000 ∨
      0x0c000000 ≤ v ∧ v < 0x0c400000 ∨
      pageVirtOffset ≤ v ∧ v < pageVirtOffset + directMappingSize := by
  unfold hostVaToPa
  split
  · next h => exact iff_of_true rfl (by omega)
  · next h =>
    split
    · next hwindow => exact iff_of_true rfl (.inr (.inr (.inr hwindow)))
    · next hwindow => exact iff_of_false Bool.false_ne_true (by omega)

/-- Of eight aligned bytes the hypervisor maps all or none. -/
theorem hostVaToPa_word {k : Nat} (hv : v % 8 = 0) (hk : k < 8) :
    (hostVaToPa L (v + k)).isSome ↔ (hostVaToPa L v).isSome := by
  rw [hostVaToPa_isSome, hostVaToPa_isSome]
  simp only [pageVirtOffset, directMappingSize]
  omega

theorem pteAddr_mod (ht : TableAddr t) : pteAddr L va t level % 8 = 0 := by
  have hmod := L.pagePhysOffset_mod
  have hoff := L.pagePhysOffset_lt
  obtain ⟨hpage, hlt⟩ := ht
  unfold pteAddr Layout.phyToVir MachineInt.toUInt64
  simp only [pageVirtOffset]
  split <;> omega

/-- An entry is read, or the hypervisor does not map it and it counts as clear. -/
theorem entry_cases (ht : TableAddr t) :
    (load (view L mem) (pteAddr L va t level) 8).result = some (pteOf L mem va t level) ∨
      (load (view L mem) (pteAddr L va t level) 8).result = none ∧ pteOf L mem va t level = 0 := by
  have hword : ∀ k < 8, (view L mem (pteAddr L va t level + k)).isSome ↔
      (hostVaToPa L (pteAddr L va t level)).isSome := by
    intro k hk
    rw [view, Option.isSome_map]
    exact hostVaToPa_word (pteAddr_mod ht) hk
  cases hhost : hostVaToPa L (pteAddr L va t level) with
  | some p =>
    refine .inl (result_load fun k hk => (hword k hk).mpr ?_)
    rw [hhost]
    rfl
  | none =>
    have hmissing : ∀ k < 8, view L mem (pteAddr L va t level + k) = none := by
      intro k hk
      have := hword k hk
      rw [hhost] at this
      exact Option.not_isSome_iff_eq_none.mp fun h => Bool.false_ne_true (this.mp h)
    refine .inr ⟨?_, ?_⟩
    · refine Option.not_isSome_iff_eq_none.mp fun hsome => ?_
      have hall := (within_load fun _ => id).mp ((honest_load _ _).mp hsome)
      have hbyte := hall 0 (by decide)
      rw [hmissing 0 (by decide)] at hbyte
      cases hbyte
    · have hfirst := hmissing 0 (by decide)
      rw [Nat.add_zero] at hfirst
      unfold pteOf
      simp [word, hmissing, hfirst]

theorem keepsFrom_succ : KeepsFrom L mem va t (n + 1) ↔ EntryKeeps (pteOf L mem va t n) n ∧
    (pteInvalid (pteOf L mem va t n) = false → pteLeaf (pteOf L mem va t n) = false →
      KeepsFrom L mem va (pteTarget (pteOf L mem va t n)) n) := by
  constructor
  · intro h
    exact ⟨h t n (.here _ _), fun hvalid hleaf t' level hnext =>
      h t' level (.down hvalid hleaf hnext)⟩
  · rintro ⟨hentry, hrest⟩ t' level hleads
    rcases leads_succ.mp hleads with ⟨rfl, rfl⟩ | ⟨hvalid, hleaf, hnext⟩
    · exact hentry
    · exact hrest hvalid hleaf t' level hnext

/-! ## The two walks -/

theorem pteInvalid_zero : pteInvalid 0 = true := by decide

/-- The loop returns what the tables map `va` to. -/
theorem walkFrom_maps (ht : TableAddr t) :
    (walkFrom L mem va t n).result = some (some pa) ↔ MapsFrom L mem va t n pa := by
  induction n generalizing t with
  | zero =>
    refine iff_of_false (by simp [walkFrom]) ?_
    rintro ⟨t', level, hleads, -⟩
    exact not_leads_zero hleads
  | succ n ih =>
    rw [walkFrom, result_bind_eq, mapsFrom_succ]
    rcases entry_cases ht with hload | ⟨hload, hzero⟩
    · rw [hload, Option.bind_some]
      cases hinvalid : pteInvalid (pteOf L mem va t n) with
      | true => simp
      | false =>
        cases hleaf : pteLeaf (pteOf L mem va t n) with
        | true => simp [eq_comm]
        | false =>
          rw [if_neg Bool.false_ne_true, if_neg Bool.false_ne_true, ih tableAddr_target]
          simp
    · rw [hload, hzero, pteInvalid_zero]
      simp

/-- The architecture's walk finds the same where the entries keep to the format, else nothing. -/
theorem archWalk_maps {p : Nat} (ht : TableAddr t) (hn : n ≤ 4) :
    RvPaging.walkFrom (guestMem L mem) va t.toNat n = some p ↔
      (∃ pa, MapsFrom L mem va t n pa ∧ pa.toNat = p) ∧ KeepsFrom L mem va t n := by
  induction n generalizing t with
  | zero =>
    refine iff_of_false (by simp [RvPaging.walkFrom]) ?_
    rintro ⟨⟨pa, ⟨t', level, hleads, -⟩, -⟩, -⟩
    exact not_leads_zero hleads
  | succ n ih =>
    rw [RvPaging.walkFrom, load_entry ht, keepsFrom_succ]
    simp only [mapsFrom_succ]
    rcases entry_cases ht with hload | ⟨hload, hzero⟩
    · rw [hload]
      have hinvalid : RvPaging.invalid (pteOf L mem va t n) = pteInvalid (pteOf L mem va t n) := rfl
      have hleaf : RvPaging.leaf (pteOf L mem va t n) = pteLeaf (pteOf L mem va t n) := rfl
      simp only [hinvalid, hleaf, EntryKeeps]
      cases hinv : pteInvalid (pteOf L mem va t n) with
      | true => simp
      | false =>
        cases hres : RvPaging.reserved (pteOf L mem va t n) with
        | true => simp
        | false =>
          cases hlf : pteLeaf (pteOf L mem va t n) with
          | true =>
            cases hal : RvPaging.aligned (pteOf L mem va t n) n with
            | true =>
              have haddr : (pteAddress (pteOf L mem va t n) va n).toNat = _ :=
                pteAddress_toNat (by omega) hal
              rw [← haddr]
              simp
            | false => simp
          | false =>
            have hih := ih tableAddr_target (by omega) (t := pteTarget (pteOf L mem va t n))
            rw [← pteTarget_toNat]
            simp [hih]
    · rw [hload, hzero, pteInvalid_zero]
      simp

theorem satpLevels_eq : RvPaging.levels satp = satpLevels satp := rfl

theorem satpLevels_le {levels : Nat} (h : satpLevels satp = some levels) : levels ≤ 4 := by
  unfold satpLevels at h
  split at h
  · cases h
    decide
  · split at h <;> cases h
    decide

theorem satpLevels_off (h : satp >>> 60 = satpModeOff) : satpLevels satp = none := by
  rw [satpLevels, h, if_neg (by decide), if_neg (by decide)]

theorem guestVaToPa_maps :
    (guestVaToPa L mem satp va).result = some (some pa) ↔ MapsTo L mem satp va pa := by
  unfold guestVaToPa MapsTo
  split
  · next hoff => simp [satpLevels_off hoff, hoff, eq_comm]
  · next hoff =>
    cases hlevels : satpLevels satp with
    | none => simp [hoff]
    | some levels =>
      simp only [walkFrom_maps tableAddr_root]
      simp [hoff]

theorem leafFrom_iff : LeafFrom L mem va t n ↔ ∃ pa, MapsFrom L mem va t n pa := by
  constructor
  · rintro ⟨t', level, hleads, hvalid, hleaf⟩
    exact ⟨_, t', level, hleads, hvalid, hleaf, rfl⟩
  · rintro ⟨pa, t', level, hleads, hvalid, hleaf, -⟩
    exact ⟨t', level, hleads, hvalid, hleaf⟩

/-- The architecture translates an address that conforms to what the tables map it to, and no
other. -/
theorem translate_maps {p : Nat} : RvPaging.translate (guestMem L mem) satp va = some p ↔
    (∃ pa, MapsTo L mem satp va pa ∧ pa.toNat = p) ∧ Conforms L mem satp va := by
  unfold RvPaging.translate MapsTo Conforms
  rw [satpLevels_eq]
  split
  · next hoff =>
    have hmode : satp >>> 60 = satpModeOff := hoff
    simp [satpLevels_off hmode, hmode]
  · next hoff =>
    have hmode : ¬ satp >>> 60 = satpModeOff := hoff
    cases hlevels : satpLevels satp with
    | none => simp [hmode]
    | some levels =>
      simp only [hmode, false_and, false_or, Option.some.injEq, exists_eq_left', leafFrom_iff,
        forall_eq', ← satpRoot_toNat]
      by_cases hcanon : RvPaging.Canonical levels va
      · rw [if_pos hcanon, archWalk_maps tableAddr_root (satpLevels_le hlevels)]
        constructor
        · rintro ⟨hmaps, hkeeps⟩
          exact ⟨hmaps, fun _ => ⟨hcanon, hkeeps⟩⟩
        · rintro ⟨⟨pa, hmaps, hp⟩, hconf⟩
          exact ⟨⟨pa, hmaps, hp⟩, (hconf ⟨pa, hmaps⟩).2⟩
      · rw [if_neg hcanon]
        refine iff_of_false (by simp) ?_
        rintro ⟨⟨pa, hmaps, -⟩, hconf⟩
        exact hcanon (hconf ⟨pa, hmaps⟩).1

/-- `guest_va_to_pa` is the architecture's translation exactly where the address conforms. -/
theorem guestVaToPa_iff :
    (∀ pa, (guestVaToPa L mem satp va).result = some (some pa) ↔
      RvPaging.translate (guestMem L mem) satp va = some pa.toNat) ↔
    Conforms L mem satp va := by
  simp only [guestVaToPa_maps, translate_maps]
  constructor
  · intro hsame levels hlevels hleaf
    obtain ⟨pa, hmaps⟩ := leafFrom_iff.mp hleaf
    exact ((hsame pa).mp (.inr ⟨levels, hlevels, hmaps⟩)).2 levels hlevels hleaf
  · intro hconf pa
    constructor
    · exact fun hmaps => ⟨⟨pa, hmaps, rfl⟩, hconf⟩
    · rintro ⟨⟨pa', hmaps, heq⟩, -⟩
      rwa [← BitVec.eq_of_toNat_eq heq]

/-! ## Words -/

/-- Byte `k` of `value` is the one that the tables map byte `k` of the word to. -/
def ByteRead (L : Layout) (mem : Nat → BitVec 8) (satp va value : BitVec 64) (k : Nat) : Prop :=
  ∃ pa, MapsTo L mem satp (va + BitVec.ofNat 64 k) pa ∧
    guestMem L mem pa.toNat = some (value.extractLsb' (8 * k) 8)

theorem deref_guestMem (a : Nat) :
    (deref (view L mem) (L.phyToVir a)).result = guestMem L mem a := rfl

/-- One more byte on top of `acc`. -/
theorem agrees_succ {acc : BitVec 64} {b : BitVec 8} {i : Nat} (hi : i < 8)
    (hacc : ∀ j, 8 * i ≤ j → acc.getLsbD j = false) :
    (∀ j < 8 * (i + 1), value.getLsbD j = (acc ||| b.setWidth 64 <<< (8 * i)).getLsbD j) ↔
      (∀ j < 8 * i, value.getLsbD j = acc.getLsbD j) ∧ value.extractLsb' (8 * i) 8 = b := by
  have hbit : ∀ j < 8 * (i + 1), (acc ||| b.setWidth 64 <<< (8 * i)).getLsbD j =
      if j < 8 * i then acc.getLsbD j else b.getLsbD (j - 8 * i) := by
    intro j hj
    rw [BitVec.getLsbD_or, BitVec.getLsbD_shiftLeft, BitVec.getLsbD_setWidth]
    split
    · next hlow => simp [hlow]
    · next hhigh =>
      rw [hacc j (by omega)]
      simp [hhigh, show j < 64 by omega, show j - 8 * i < 64 by omega]
  constructor
  · intro h
    refine ⟨fun j hj => ?_, ?_⟩
    · rw [h j (by omega), hbit j (by omega), if_pos hj]
    · refine BitVec.eq_of_getLsbD_eq fun j hj => ?_
      rw [BitVec.getLsbD_extractLsb', decide_eq_true hj, Bool.true_and, h _ (by omega),
        hbit _ (by omega), if_neg (by omega), Nat.add_sub_cancel_left]
  · rintro ⟨hlow, rfl⟩ j hj
    rw [hbit j hj]
    split
    · next hj' => exact hlow j hj'
    · next hj' =>
      rw [BitVec.getLsbD_extractLsb', decide_eq_true (by omega), Bool.true_and,
        Nat.add_sub_cancel' (by omega)]

theorem acc_high {acc : BitVec 64} {b : BitVec 8} {i : Nat}
    (hacc : ∀ j, 8 * i ≤ j → acc.getLsbD j = false) {j : Nat} (hj : 8 * (i + 1) ≤ j) :
    (acc ||| b.setWidth 64 <<< (8 * i)).getLsbD j = false := by
  rw [BitVec.getLsbD_or, BitVec.getLsbD_shiftLeft, BitVec.getLsbD_setWidth, hacc j (by omega),
    BitVec.getLsbD_of_ge b _ (by omega)]
  simp

/-- A byte that is mapped is added to the word. -/
theorem readFrom_succ {i : Nat} {acc : BitVec 64} {b : BitVec 8}
    (hmaps : MapsTo L mem satp (va + BitVec.ofNat 64 i) pa)
    (hb : guestMem L mem pa.toNat = some b) : (readFrom L mem satp va i acc (n + 1)).result =
      (readFrom L mem satp va (i + 1) (acc ||| b.setWidth 64 <<< (8 * i)) n).result := by
  rw [← deref_guestMem] at hb
  rw [readFrom, result_bind (guestVaToPa_maps.mpr hmaps)]
  exact result_bind hb

/-- From byte `i` on the loop adds the bytes that are left, or stops at one that is not mapped. -/
theorem readFrom_reads {i : Nat} (hi : i + n = 8) {acc : BitVec 64}
    (hacc : ∀ j, 8 * i ≤ j → acc.getLsbD j = false) :
    (readFrom L mem satp va i acc n).result = some (some value) ↔
      (∀ j < 8 * i, value.getLsbD j = acc.getLsbD j) ∧
        ∀ k, i ≤ k → k < 8 → ByteRead L mem satp va value k := by
  induction n generalizing i acc with
  | zero =>
    obtain rfl : i = 8 := by omega
    have hdone : ∀ k, 8 ≤ k → k < 8 → ByteRead L mem satp va value k := by
      intro k hle hlt
      omega
    rw [readFrom, result_pure, Option.some.injEq, Option.some.injEq, and_iff_left hdone]
    constructor
    · rintro rfl j -
      rfl
    · exact fun h => (BitVec.eq_of_getLsbD_eq h).symm
  | succ n ih =>
    constructor
    · intro hread
      obtain ⟨r, hr, hrest⟩ := bind_result_eq_some hread
      cases r with
      | none => cases hrest
      | some pa =>
        obtain ⟨b, hb, hrest⟩ := bind_result_eq_some hrest
        obtain ⟨hagree, hbytes⟩ := (ih (by omega) fun j hj => acc_high hacc hj).mp hrest
        obtain ⟨hlow, hbyte⟩ := (agrees_succ (by omega) hacc).mp hagree
        have hfirst : ByteRead L mem satp va value i :=
          ⟨pa, guestVaToPa_maps.mp hr, by rw [hbyte, ← deref_guestMem, hb]⟩
        refine ⟨hlow, fun k hik hk => ?_⟩
        rcases Nat.eq_or_lt_of_le hik with rfl | hlt
        · exact hfirst
        · exact hbytes k hlt hk
    · rintro ⟨hlow, hbytes⟩
      obtain ⟨pa, hmaps, hb⟩ := hbytes i (Nat.le_refl i) (by omega)
      have hagree := (agrees_succ (by omega) hacc).mpr ⟨hlow, rfl⟩
      have hrest := (ih (by omega) fun j hj => acc_high hacc hj).mpr
        ⟨hagree, fun k hik hk => hbytes k (by omega) hk⟩
      rw [readFrom_succ hmaps hb]
      exact hrest

/-- A word is read byte by byte, wherever the tables map each. -/
theorem guestReadU64Va_reads : (guestReadU64Va L mem satp va).result = some (some value) ↔
    ∀ k < 8, ByteRead L mem satp va value k := by
  have hzero : ∀ j, 8 * 0 ≤ j → (0 : BitVec 64).getLsbD j = false := fun j _ => BitVec.getLsbD_zero
  rw [guestReadU64Va, readFrom_reads (Nat.zero_add 8) hzero]
  simp

theorem byteRead_iff {k : Nat} (hconf : Conforms L mem satp (va + BitVec.ofNat 64 k)) :
    ByteRead L mem satp va value k ↔
      ∃ pa, RvPaging.translate (guestMem L mem) satp (va + BitVec.ofNat 64 k) = some pa ∧
        guestMem L mem pa = some (value.extractLsb' (8 * k) 8) := by
  simp only [translate_maps, and_iff_left hconf, ByteRead]
  constructor
  · rintro ⟨pa, hmaps, hbyte⟩
    exact ⟨pa.toNat, ⟨pa, hmaps, rfl⟩, hbyte⟩
  · rintro ⟨-, ⟨pa, hmaps, rfl⟩, hbyte⟩
    exact ⟨pa, hmaps, hbyte⟩

end

theorem bootLayout_fits : 0x80400000 + 3 * 2 ^ 20 ≤ 2 ^ 32 := by
  decide

/-- An image that ends at 0x80400000. -/
def bootLayout : Layout := ⟨0x80400000, bootLayout_fits⟩

/-- One table at 0x90000000, whose first entry maps the first gigabyte to itself. -/
def oneLeaf (a : Nat) : BitVec 8 := if a = 0x90000000 then 0xf else 0

end HyperCore.Riscv64
