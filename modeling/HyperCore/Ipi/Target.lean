import HyperCore.Ipi.CallFunc

/-!
# The target of a host IPI

On AArch64 `ipi_send_cpu` looks up the target's MPIDR and writes ICC_SGI1R. The value carries
Aff1, Aff2 and Aff3, but always names bit 0 of the target list, so the interrupt goes to the
pCPU with Aff0 = 0 (`gic_send_names_iff`). On RISC-V it shifts 1 by the hart id into one word
without a base, so a boot hart with an id of 64 or more is not named (`hart_send_selects_iff`).

The value is read back with the rules for the guest's SGIs: `decodeSgi1r` and the affinities
that `gic_vcpu_send_sgi` goes over.
-/

namespace HyperCore.Ipi

open Sched

/-! ## Reading a value of ICC_SGI1R -/

/-- The affinities that `gic_vcpu_send_sgi` goes over when IRM is clear. -/
def sgiTargets (sgi : GicVcpuSgi) : List (BitVec 64) :=
  ((List.range 16).filter fun bit => sgi.targetList.getLsbD bit).map fun bit =>
    gicEmulSgiTargetMpidr sgi (sgi.rs.zeroExtend 32 * 16 + BitVec.ofNat 32 bit)

/-- The value stands for the SGI `vec` and for one affinity. -/
def NamesOnly (data : BitVec 64) (vec : BitVec 8) (mpidr : BitVec 64) : Prop :=
  (decodeSgi1r data).irm = false ∧ (decodeSgi1r data).intid = vec ∧
    sgiTargets (decodeSgi1r data) = [mpidr]

/-- The interrupt for the task with an affinity, if there is one. -/
def injectAt (virq : BitVec 32) (g : Guest) (mpidr : BitVec 64) : Option Guest :=
  (findTaskByMpidr g.sys mpidr).map fun t => t.elim g (g.inject · virq)

/-- `gic_vcpu_send_sgi` reads its argument so. -/
theorem gicVcpuSendSgi_targets (g : Guest) (c : Cpu) {sgi : GicVcpuSgi} (hirm : sgi.irm = false) :
    gicVcpuSendSgi g c sgi =
      (sgiTargets sgi).foldlM (injectAt (sgi.intid.zeroExtend 32)) g := by
  have hbit : ∀ g bit, sendSgiBit sgi (sgi.intid.zeroExtend 32) g bit =
      if sgi.targetList.getLsbD bit = true then injectAt (sgi.intid.zeroExtend 32) g
        (gicEmulSgiTargetMpidr sgi (sgi.rs.zeroExtend 32 * 16 + BitVec.ofNat 32 bit)) else some g := by
    intro g bit
    unfold sendSgiBit injectAt
    split
    · dsimp only
      generalize findTaskByMpidr g.sys (gicEmulSgiTargetMpidr sgi
        (sgi.rs.zeroExtend 32 * 16 + BitVec.ofNat 32 bit)) = found
      cases found with
      | none => rfl
      | some r => cases r <;> rfl
    · rfl
  unfold gicVcpuSendSgi sgiTargets
  simp only [hirm, Bool.false_eq_true, if_false, List.foldlM_map]
  generalize List.range 16 = bits
  induction bits generalizing g with
  | nil => rfl
  | cons bit bits ih =>
    rw [List.foldlM_cons, hbit]
    by_cases hset : sgi.targetList.getLsbD bit = true
    · rw [if_pos hset, List.filter_cons_of_pos hset, List.foldlM_cons]
      exact bind_congr ih
    · rw [if_neg hset, List.filter_cons_of_neg hset]
      exact ih g

/-! ## The value -/

/-- Bit `i` of a field of `n` bits at `k`. -/
theorem getLsbD_field {n : Nat} {mask : BitVec 64} (x : BitVec 64) (k : Nat)
    (hmask : ∀ i < 64, mask.getLsbD i = decide (i < n)) {i : Nat} (hi : i < 64) :
    ((x &&& mask) <<< k).getLsbD i = (decide (k ≤ i ∧ i < k + n) && x.getLsbD (i - k)) := by
  rw [BitVec.getLsbD_shiftLeft, BitVec.getLsbD_and]
  by_cases hk : k ≤ i
  · rw [hmask (i - k) (by omega)]
    grind
  · grind

theorem getLsbD_sgir (aff3 aff2 aff1 intid irm tgt : BitVec 64) {i : Nat} (hi : i < 64) :
    (gicv3SgirValue aff3 aff2 aff1 intid irm tgt).getLsbD i =
      (decide (48 ≤ i ∧ i < 56) && aff3.getLsbD (i - 48) ||
        decide (40 ≤ i ∧ i < 41) && irm.getLsbD (i - 40) ||
        decide (32 ≤ i ∧ i < 40) && aff2.getLsbD (i - 32) ||
        decide (24 ≤ i ∧ i < 28) && intid.getLsbD (i - 24) ||
        decide (16 ≤ i ∧ i < 24) && aff1.getLsbD (i - 16) ||
        decide (i < 16) && tgt.getLsbD i) := by
  have hbyte : ∀ i < 64, (0xff : BitVec 64).getLsbD i = decide (i < 8) := by decide
  have hnibble : ∀ i < 64, (0xf : BitVec 64).getLsbD i = decide (i < 4) := by decide
  have hbit : ∀ i < 64, (0x1 : BitVec 64).getLsbD i = decide (i < 1) := by decide
  have hlist : ∀ i < 64, (0xffff : BitVec 64).getLsbD i = decide (i < 16) := by decide
  unfold gicv3SgirValue
  simp only [BitVec.getLsbD_or, getLsbD_field _ _ hbyte hi, getLsbD_field _ _ hnibble hi,
    getLsbD_field _ _ hbit hi, BitVec.getLsbD_and, hlist i hi, Bool.and_comm (tgt.getLsbD i)]

/-- A field of the value is the argument it was made from. -/
theorem sgir_extract {aff3 aff2 aff1 intid irm tgt x : BitVec 64} {k n : Nat}
    (hx : ∀ i < n, (gicv3SgirValue aff3 aff2 aff1 intid irm tgt).getLsbD (k + i) = x.getLsbD i) :
    (gicv3SgirValue aff3 aff2 aff1 intid irm tgt).extractLsb' k n = x.setWidth n := by
  refine BitVec.eq_of_getLsbD_eq fun i hi => ?_
  rw [BitVec.getLsbD_extractLsb', BitVec.getLsbD_setWidth, hx i hi]

section

variable (mpidr : BitVec 64) (vec : Nat)

theorem sgirTo_aff1 : (sgirTo mpidr vec).extractLsb' 16 8 = mpidr.extractLsb' 8 8 := by
  unfold sgirTo
  rw [sgir_extract (x := (mpidr >>> 8) &&& 0xff), ← decode_byte]
  · intro i hi
    rw [getLsbD_sgir _ _ _ _ _ _ (by omega)]
    grind

theorem sgirTo_aff2 : (sgirTo mpidr vec).extractLsb' 32 8 = mpidr.extractLsb' 16 8 := by
  unfold sgirTo
  rw [sgir_extract (x := (mpidr >>> 16) &&& 0xff), ← decode_byte]
  · intro i hi
    rw [getLsbD_sgir _ _ _ _ _ _ (by omega)]
    grind

theorem sgirTo_aff3 : (sgirTo mpidr vec).extractLsb' 48 8 = mpidr.extractLsb' 32 8 := by
  unfold sgirTo
  rw [sgir_extract (x := (mpidr >>> 32) &&& 0xff), ← decode_byte]
  · intro i hi
    rw [getLsbD_sgir _ _ _ _ _ _ (by omega)]
    grind

theorem sgirTo_rs : (sgirTo mpidr vec).extractLsb' 44 4 = 0 := by
  unfold sgirTo
  rw [sgir_extract (x := 0)]
  · rfl
  · intro i hi
    rw [getLsbD_sgir _ _ _ _ _ _ (by omega)]
    grind

theorem sgirTo_intid : (sgirTo mpidr vec).extractLsb' 24 4 = BitVec.ofNat 4 vec := by
  unfold sgirTo
  rw [sgir_extract (x := BitVec.ofNat 64 vec), BitVec.setWidth_ofNat_of_le (by decide)]
  intro i hi
  rw [getLsbD_sgir _ _ _ _ _ _ (by omega)]
  grind

/-- Bit 0 is the only one of the target list. -/
theorem sgirTo_list {bit : Nat} (hbit : bit < 16) :
    (sgirTo mpidr vec).getLsbD bit = decide (bit = 0) := by
  unfold sgirTo
  rw [getLsbD_sgir _ _ _ _ _ _ (by omega)]
  have hone : (1 : BitVec 64).getLsbD bit = decide (bit = 0) := by
    revert hbit bit
    decide
  grind

theorem sgirTo_irm : (decodeSgi1r (sgirTo mpidr vec)).irm = false := by
  rw [decode_irm, sgirTo, getLsbD_sgir _ _ _ _ _ _ (by decide)]
  grind

end

/-- The vector arrives as it is when it is the number of an SGI. -/
theorem decode_sgirTo_intid (mpidr : BitVec 64) (vec : BitVec 8) :
    (decodeSgi1r (sgirTo mpidr vec.toNat)).intid = vec ↔ vec.toNat < 16 := by
  have hintid : (decodeSgi1r (sgirTo mpidr vec.toNat)).intid =
      (BitVec.ofNat 4 vec.toNat).zeroExtend 8 := by
    rw [← sgirTo_intid mpidr]
    exact decode_nibble _ 24
  rw [hintid, ← BitVec.toNat_inj, BitVec.toNat_setWidth, BitVec.toNat_ofNat]
  omega

/-- The value stands for the target with Aff0 cleared. -/
theorem sgiTargets_sgirTo (mpidr : BitVec 64) (vec : Nat) :
    sgiTargets (decodeSgi1r (sgirTo mpidr vec)) =
      [gicEmulSgiTargetMpidr (decodeSgi1r (sgirTo mpidr vec)) 0] := by
  have hbits : (List.range 16).filter
      (fun bit => (decodeSgi1r (sgirTo mpidr vec)).targetList.getLsbD bit) = [0] := by
    rw [List.filter_congr (q := (· == 0))]
    · rfl
    · intro bit hbit
      have hlt : bit < 16 := List.mem_range.mp hbit
      rw [decode_targetList _ hlt, sgirTo_list _ _ hlt, beq_eq_decide]
  have hrs : (decodeSgi1r (sgirTo mpidr vec)).rs = 0 := by
    change (((sgirTo mpidr vec) >>> 44) &&& 0xf).truncate 8 = 0
    rw [decode_nibble, sgirTo_rs]
    rfl
  unfold sgiTargets
  rw [hbits, hrs]
  rfl

/-- What a target bit stands for is an affinity. -/
theorem affinity_target (sgi : GicVcpuSgi) {aff0 : BitVec 32} (h : aff0.toNat < 256) :
    psciMpidrAffinity (gicEmulSgiTargetMpidr sgi aff0) = gicEmulSgiTargetMpidr sgi aff0 := by
  have haff0 : aff0.zeroExtend 64 = (aff0.truncate 8).zeroExtend 64 <<< 0 := by
    refine BitVec.eq_of_toNat_eq ?_
    simp [Nat.mod_eq_of_lt h]
  have hbyte : ∀ (a : BitVec 8) i, a.getLsbD i = true → i < 8 :=
    fun a i hbit => Nat.lt_of_not_le fun hge => by simp [BitVec.getLsbD_of_ge a i hge] at hbit
  refine BitVec.eq_of_getLsbD_eq fun i hi => ?_
  rw [psciMpidrAffinity, BitVec.getLsbD_and, mask_bit, gicEmulSgiTargetMpidr, haff0]
  simp only [BitVec.getLsbD_or, byte_shift_bit _ (by decide : 32 ≤ 32),
    byte_shift_bit _ (by decide : 16 ≤ 32), byte_shift_bit _ (by decide : 8 ≤ 32),
    byte_shift_bit _ (by decide : 0 ≤ 32)]
  grind

/-- An affinity is what the value names exactly when its Aff0 is 0. -/
theorem sgirTo_target_iff {mpidr : BitVec 64} (hmpidr : psciMpidrAffinity mpidr = mpidr)
    (vec : Nat) :
    gicEmulSgiTargetMpidr (decodeSgi1r (sgirTo mpidr vec)) 0 = mpidr ↔
      mpidr.extractLsb' 0 8 = 0 := by
  obtain ⟨h0, h1, h2, h3⟩ :=
    targetMpidr_fields (decodeSgi1r (sgirTo mpidr vec)) (by decide : (0 : BitVec 32).toNat < 256)
  have haff1 : (decodeSgi1r (sgirTo mpidr vec)).aff1 = mpidr.extractLsb' 8 8 :=
    (decode_byte _ 16).trans (sgirTo_aff1 mpidr vec)
  have haff2 : (decodeSgi1r (sgirTo mpidr vec)).aff2 = mpidr.extractLsb' 16 8 :=
    (decode_byte _ 32).trans (sgirTo_aff2 mpidr vec)
  have haff3 : (decodeSgi1r (sgirTo mpidr vec)).aff3 = mpidr.extractLsb' 32 8 :=
    (decode_byte _ 48).trans (sgirTo_aff3 mpidr vec)
  have hiff : gicEmulSgiTargetMpidr (decodeSgi1r (sgirTo mpidr vec)) 0 = mpidr ↔
      psciMpidrAffinity (gicEmulSgiTargetMpidr (decodeSgi1r (sgirTo mpidr vec)) 0) =
        psciMpidrAffinity mpidr := by
    rw [affinity_target _ (by decide : (0 : BitVec 32).toNat < 256), hmpidr]
  rw [hiff, affinity_eq_iff]
  simp only [affinityFields, List.forall_mem_cons, h0, h1, h2, h3, haff1, haff2, haff3,
    List.not_mem_nil, false_imp_iff, implies_true, and_true]
  exact eq_comm

/-! ## AArch64 -/

/-- `ipi_send_cpu` of gicv3.c: what it writes to ICC_SGI1R. -/
def gicIpiSendCpu (h : HostCpus) (target : Nat) (vec : BitVec 8) : Option (BitVec 64) :=
  if smpCpuToMpidr h target = BitVec.allOnes 64 then none
  else some (sgirTo (smpCpuToMpidr h target) vec.toNat)

theorem gic_send_names_iff {h : HostCpus} {c : Nat} (hc : c < h.count)
    (haff : psciMpidrAffinity (h.mpidr c) = h.mpidr c) (vec : BitVec 8) :
    (∃ data, gicIpiSendCpu h c vec = some data ∧ NamesOnly data vec (h.mpidr c)) ↔
      vec.toNat < 16 ∧ (h.mpidr c).extractLsb' 0 8 = 0 := by
  have hlookup : smpCpuToMpidr h c = h.mpidr c := if_neg (Nat.not_le.mpr hc)
  have hsome : h.mpidr c ≠ BitVec.allOnes 64 := by
    intro hall
    rw [hall] at haff
    exact absurd haff (by decide)
  have hsend : gicIpiSendCpu h c vec = some (sgirTo (h.mpidr c) vec.toNat) := by
    rw [gicIpiSendCpu, hlookup, if_neg hsome]
  rw [hsend]
  simp only [Option.some.injEq, exists_eq_left', NamesOnly, sgirTo_irm, true_and,
    decode_sgirTo_intid, sgiTargets_sgirTo, List.cons.injEq, and_true, sgirTo_target_iff haff]

/-! ## RISC-V -/

/-- One round of the loop of `smp_boot_secondaries`. When all entries are taken, no later round
does anything either. -/
def bootHart (boot : Int) (started : Nat → Bool) (m : HartMap) (hart : Nat) : HartMap :=
  if (hart : Int) = boot then m
  else if 4 ≤ m.cpuCount then m
  else if started hart then
    { cpuCount := m.cpuCount + 1, cpuToHart := Function.update m.cpuToHart m.cpuCount hart }
  else m

/-- `smp_boot_secondaries`, for the boot hart that the firmware gave and its answers to the
requests to start the others. -/
def smpBootSecondaries (boot : Int) (started : Nat → Bool) : HartMap :=
  (List.range 4).foldl (bootHart boot started)
    { cpuCount := 1, cpuToHart := Function.update (fun _ => 0) 0 boot }

/-- `ipi_send_cpu` of ipi.c: the mask for `sbi_send_ipi`. The shift takes the low six bits of the
hart id, as the processor's does; C has no value for it from 64 on. -/
def hartIpiSendCpu (m : HartMap) (target : Int) (vec : BitVec 8) : Option (BitVec 64) :=
  (ipiValidateTarget m target vec).map fun hart => (1 : BitVec 64) <<< (hart.toNat % 64)

/-- The harts that a mask without a base stands for. -/
def Selects (mask : BitVec 64) (hart : Nat) : Prop := mask.getLsbD hart = true

instance (mask : BitVec 64) (hart : Nat) : Decidable (Selects mask hart) :=
  inferInstanceAs (Decidable (mask.getLsbD hart = true))

/-- A mask is one hart exactly when the id fits. -/
theorem selects_shift_iff (hart : Nat) :
    (∀ k, Selects ((1 : BitVec 64) <<< (hart % 64)) k ↔ k = hart) ↔ hart < 64 := by
  have hbit : ∀ k, Selects ((1 : BitVec 64) <<< (hart % 64)) k ↔ k = hart % 64 := by
    intro k
    have hone : (1 : BitVec 64).getLsbD (k - hart % 64) = decide (k - hart % 64 = 0) := by
      rw [show (1 : BitVec 64) = BitVec.ofNat 64 1 from rfl, BitVec.getLsbD_one]
      simp
    have hlt : hart % 64 < 64 := Nat.mod_lt _ (by decide)
    rw [Selects, BitVec.getLsbD_shiftLeft, hone]
    grind
  constructor
  · intro h
    have hself := (hbit hart).mp ((h hart).mpr rfl)
    omega
  · intro hlt k
    rw [hbit, Nat.mod_eq_of_lt hlt]

/-- The first CPU is the boot hart, and only small ids are added to it. -/
structure Booted (boot : Int) (m : HartMap) : Prop where
  pos : 0 < m.cpuCount
  first : m.cpuToHart 0 = boot
  added : ∀ c, 0 < c → c < m.cpuCount → 0 ≤ m.cpuToHart c ∧ m.cpuToHart c < 4

theorem bootHart_booted {boot : Int} {started : Nat → Bool} {m : HartMap} {hart : Nat}
    (hm : Booted boot m) (hhart : hart < 4) : Booted boot (bootHart boot started m hart) := by
  unfold bootHart
  split
  · exact hm
  · split
    · exact hm
    · split
      · refine ⟨Nat.succ_pos _, ?_, fun c hpos hc => ?_⟩
        · exact (Function.update_of_ne (Nat.ne_of_lt hm.pos) _ _).trans hm.first
        · by_cases hlast : c = m.cpuCount
          · subst hlast
            simp only [Function.update_self]
            omega
          · simp only [Function.update_of_ne hlast]
            exact hm.added c hpos (Nat.lt_of_le_of_ne (Nat.le_of_lt_succ hc) hlast)
      · exact hm

theorem smpBootSecondaries_booted (boot : Int) (started : Nat → Bool) :
    Booted boot (smpBootSecondaries boot started) := by
  have hrun : ∀ (harts : List Nat) (m : HartMap), Booted boot m → (∀ hart ∈ harts, hart < 4) →
      Booted boot (harts.foldl (bootHart boot started) m) := by
    intro harts
    induction harts with
    | nil => exact fun m hm _ => hm
    | cons hart harts ih =>
      intro m hm hlt
      rw [List.forall_mem_cons] at hlt
      exact ih _ (bootHart_booted hm hlt.1) hlt.2
  refine hrun _ _ ⟨Nat.one_pos, rfl, fun c hpos hc => ?_⟩ fun hart hmem => List.mem_range.mp hmem
  exact absurd hc (Nat.not_lt.mpr hpos)

/-- A mask is made for every hart id but a negative one, and it is right unless it is for the boot
hart and the id of that does not fit. -/
theorem hart_send_selects_iff (boot : Int) (started : Nat → Bool) {c : Nat}
    (hc : c < (smpBootSecondaries boot started).cpuCount) {vec : BitVec 8}
    (hvec : vec.toNat < ipiMax) :
    ((hartIpiSendCpu (smpBootSecondaries boot started) c vec).isSome ↔
      0 ≤ smpHartId (smpBootSecondaries boot started) c) ∧
    ((∀ mask, hartIpiSendCpu (smpBootSecondaries boot started) c vec = some mask →
        ∀ hart : Nat, Selects mask hart ↔
          (hart : Int) = smpHartId (smpBootSecondaries boot started) c) ↔
      c ≠ 0 ∨ boot < 64) := by
  have hm := smpBootSecondaries_booted boot started
  generalize smpBootSecondaries boot started = m at hc hm ⊢
  have hid : smpHartId m c = m.cpuToHart c := by
    unfold smpHartId
    rw [if_neg (by omega), Int.toNat_natCast]
  have hsend : hartIpiSendCpu m c vec = if m.cpuToHart c < 0 then none else
      some ((1 : BitVec 64) <<< ((m.cpuToHart c).toNat % 64)) := by
    unfold hartIpiSendCpu ipiValidateTarget
    rw [if_neg (Nat.not_le.mpr hvec), if_neg (by omega), hid]
    split <;> rfl
  rw [hid, hsend]
  by_cases hneg : m.cpuToHart c < 0
  · have hzero : c = 0 := by
      by_contra hne
      have hadded := hm.added c (Nat.pos_of_ne_zero hne) hc
      omega
    subst hzero
    have hfirst := hm.first
    rw [if_pos hneg]
    refine ⟨iff_of_false Bool.false_ne_true (by omega), iff_of_true ?_ (.inr (by omega))⟩
    exact fun mask hmask => absurd hmask nofun
  · rw [if_neg hneg]
    have hcast : ∀ hart : Nat, (hart : Int) = m.cpuToHart c ↔ hart = (m.cpuToHart c).toNat := by
      intro hart
      omega
    refine ⟨iff_of_true rfl (by omega), ?_⟩
    simp only [Option.some.injEq, forall_eq', hcast, selects_shift_iff]
    constructor
    · intro hlt
      by_cases hzero : c = 0
      · subst hzero
        have hfirst := hm.first
        exact .inr (by omega)
      · exact .inl hzero
    · rintro (hne | hlt)
      · have hadded := hm.added c (Nat.pos_of_ne_zero hne) hc
        omega
      · by_cases hzero : c = 0
        · subst hzero
          have hfirst := hm.first
          omega
        · have hadded := hm.added c (Nat.pos_of_ne_zero hzero) hc
          omega

/-! ## Both -/

/-- The vector and the target of a host IPI arrive as they were sent on AArch64 exactly for the
SGI numbers and the targets with Aff0 = 0, and on RISC-V exactly for the harts below 64. -/
theorem host_ipi_iff {h : HostCpus} {c : Nat} (hc : c < h.count)
    (haff : psciMpidrAffinity (h.mpidr c) = h.mpidr c) (sgi : BitVec 8) (boot : Int)
    (started : Nat → Bool) {target : Nat}
    (htarget : target < (smpBootSecondaries boot started).cpuCount) {vec : BitVec 8}
    (hvec : vec.toNat < ipiMax) :
    ((∃ data, gicIpiSendCpu h c sgi = some data ∧ NamesOnly data sgi (h.mpidr c)) ↔
      sgi.toNat < 16 ∧ (h.mpidr c).extractLsb' 0 8 = 0) ∧
    ((hartIpiSendCpu (smpBootSecondaries boot started) target vec).isSome ↔
      0 ≤ smpHartId (smpBootSecondaries boot started) target) ∧
    ((∀ mask, hartIpiSendCpu (smpBootSecondaries boot started) target vec = some mask →
        ∀ hart : Nat, Selects mask hart ↔
          (hart : Int) = smpHartId (smpBootSecondaries boot started) target) ↔
      target ≠ 0 ∨ boot < 64) :=
  ⟨gic_send_names_iff hc haff sgi, hart_send_selects_iff boot started htarget hvec⟩

/-- The second of two clusters, and the last of four harts. -/
theorem host_ipi_iff_cluster :
    (∃ data, gicIpiSendCpu twoHosts 1 0 = some data ∧ NamesOnly data 0 0x100) ∧
      (hartIpiSendCpu (smpBootSecondaries 0 fun _ => true) 3 0).isSome = true := by
  have hboth := host_ipi_iff (by decide : 1 < twoHosts.count) (by decide) 0 0 (fun _ => true)
    (by decide : 3 < (smpBootSecondaries 0 fun _ => true).cpuCount)
    (by decide : (0 : BitVec 8).toNat < ipiMax)
  exact ⟨hboth.1.mpr (by decide), hboth.2.1.mpr (by decide)⟩

theorem oneCluster_le : 2 ≤ 4 := by
  decide

/-- Two cores of one cluster. -/
def oneCluster : HostCpus := ⟨2, fun cpu => BitVec.ofNat 64 cpu, oneCluster_le⟩

/-- The interrupt for the second core names the first, and a boot hart with the id 64 is sent the
mask of hart 0. -/
theorem second_core_not_named :
    (¬ ∃ data, gicIpiSendCpu oneCluster 1 0 = some data ∧
      NamesOnly data 0 (oneCluster.mpidr 1)) ∧
    ∃ mask, hartIpiSendCpu (smpBootSecondaries 64 fun _ => false) 0 0 = some mask ∧
      Selects mask 0 ∧ ¬ Selects mask 64 := by
  refine ⟨fun h => ?_, 1, by decide, by decide, by decide⟩
  have hzero := ((gic_send_names_iff (by decide) (by decide) 0).mp h).2
  exact absurd hzero (by decide)

end HyperCore.Ipi
