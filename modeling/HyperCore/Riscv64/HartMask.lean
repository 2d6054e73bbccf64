import HyperCore.Riscv64.Sbi

/-!
# Hart masks

A call names harts by a mask and a base: bit `b` of the mask is hart `base + b`, and a base of all
ones is every hart. `handle_sbi_send_ipi` goes over the bits and adds the base,
`guest_hart_selected` subtracts it from each hart. The sum wraps at 2^64 and the difference does
not, so only the fences follow the mask when a base close to 2^64 is given.
-/

namespace HyperCore.Riscv64

/-- The harts a mask stands for. -/
def NamesHart (count : Nat) (mask base : BitVec 64) (hart : Nat) : Prop :=
  hart < count ∧ (base = -1 ∨
    base.toNat ≤ hart ∧ hart - base.toNat < 64 ∧ mask.getLsbD (hart - base.toNat) = true)

/-- The harts `riscv_remote_fence` goes on with. -/
def fenceHarts (env : SbiEnv) (mask base : BitVec 64) : List Nat :=
  (List.range env.count).filter fun hart => guestHartSelected hart mask base

/-- No bit of the mask wraps to a hart of the guest. -/
def NoneWraps (count : Nat) (mask base : BitVec 64) : Prop :=
  base = -1 ∨ ∀ bit < 64, mask.getLsbD bit = true → 2 ^ 64 ≤ base.toNat + bit →
    count ≤ base.toNat + bit - 2 ^ 64

section

variable {env : SbiEnv} {regs : CpuUserRegs} {mask base : BitVec 64} {hart pcpu : Nat}

theorem guestHartSelected_iff : guestHartSelected hart mask base = true ↔ base = -1 ∨
    base.toNat ≤ hart ∧ hart - base.toNat < 64 ∧ mask.getLsbD (hart - base.toNat) = true := by
  unfold guestHartSelected
  split
  · next hall => exact iff_of_true rfl (.inl hall)
  · next hall =>
    split
    · next hbelow =>
      refine iff_of_false Bool.false_ne_true ?_
      rintro (h | ⟨hle, -, -⟩)
      · exact hall h
      · exact absurd hbelow (Nat.not_lt.mpr hle)
    · next hbelow =>
      split
      · next hfar =>
        refine iff_of_false Bool.false_ne_true ?_
        rintro (h | ⟨-, hnear, -⟩)
        · exact hall h
        · exact absurd hnear (Nat.not_lt.mpr hfar)
      · next hfar =>
        constructor
        · exact fun hbit => .inr ⟨Nat.not_lt.mp hbelow, Nat.not_le.mp hfar, hbit⟩
        · rintro (h | ⟨-, -, hbit⟩)
          · exact absurd h hall
          · exact hbit

theorem mem_fenceHarts : hart ∈ fenceHarts env mask base ↔ NamesHart env.count mask base hart := by
  unfold fenceHarts NamesHart
  rw [List.mem_filter, List.mem_range, guestHartSelected_iff]

/-- The fence reaches the CPUs of these harts. -/
theorem selectedPcpu_iff : selectedPcpu env mask base pcpu = true ↔
    ∃ hart ∈ fenceHarts env mask base, ∃ pinned, env.affinity hart = some pinned ∧
      (if pinned < 0 then (env.cpuId : Int) else pinned) = pcpu := by
  unfold selectedPcpu fenceHarts
  rw [List.any_eq_true]
  constructor
  · rintro ⟨hart, hmem, hsel⟩
    obtain ⟨hmask, hcpu⟩ := Bool.and_eq_true_iff.mp hsel
    cases haff : env.affinity hart with
    | none => simp [haff] at hcpu
    | some pinned =>
      rw [haff] at hcpu
      exact ⟨hart, List.mem_filter.mpr ⟨hmem, hmask⟩, pinned, haff, beq_iff_eq.mp hcpu⟩
  · rintro ⟨hart, hmem, pinned, haff, hcpu⟩
    obtain ⟨hrange, hmask⟩ := List.mem_filter.mp hmem
    refine ⟨hart, hrange, Bool.and_eq_true_iff.mpr ⟨hmask, ?_⟩⟩
    rw [haff]
    exact beq_iff_eq.mpr hcpu

/-- Without a base of all ones, the sum is taken modulo 2^64. -/
theorem softIrq_mem (hbase : regs a1Slot ≠ -1) :
    SbiAction.softIrq hart ∈ (handleSbiSendIpi env regs).actions ↔
      hart < env.count ∧ ∃ bit < 64, (regs a0Slot).getLsbD bit = true ∧
        ((regs a1Slot).toNat + bit) % 2 ^ 64 = hart := by
  have hsum : ∀ bit < 64, (regs a1Slot + BitVec.ofNat 64 bit).toNat =
      ((regs a1Slot).toNat + bit) % 2 ^ 64 := by
    intro bit hbit
    rw [BitVec.toNat_add, BitVec.toNat_ofNat, Nat.mod_eq_of_lt (by omega : bit < 2 ^ 64)]
  unfold handleSbiSendIpi SbiDone.answer
  simp only [if_neg hbase, List.mem_map, List.mem_filter, List.mem_range, Bool.and_eq_true,
    decide_eq_true_eq, SbiAction.softIrq.injEq, exists_eq_right]
  constructor
  · rintro ⟨bit, ⟨hbit, hset, hlt⟩, rfl⟩
    exact ⟨hlt, bit, hbit, hset, (hsum bit hbit).symm⟩
  · rintro ⟨hlt, bit, hbit, hset, rfl⟩
    rw [← hsum bit hbit] at hlt ⊢
    exact ⟨bit, ⟨hbit, hset, hlt⟩, rfl⟩

theorem softIrq_mem_all (hbase : regs a1Slot = -1) :
    SbiAction.softIrq hart ∈ (handleSbiSendIpi env regs).actions ↔ hart < env.count := by
  unfold handleSbiSendIpi SbiDone.answer
  simp only [if_pos hbase, List.mem_map, List.mem_range, SbiAction.softIrq.injEq, exists_eq_right]

/-- A named hart is always interrupted. -/
theorem softIrq_of_names (hcount : env.count < 2 ^ 32)
    (h : NamesHart env.count (regs a0Slot) (regs a1Slot) hart) :
    SbiAction.softIrq hart ∈ (handleSbiSendIpi env regs).actions := by
  obtain ⟨hlt, hall | ⟨hle, hnear, hset⟩⟩ := h
  · exact (softIrq_mem_all hall).mpr hlt
  · by_cases hall : regs a1Slot = -1
    · exact (softIrq_mem_all hall).mpr hlt
    · refine (softIrq_mem hall).mpr ⟨hlt, hart - (regs a1Slot).toNat, hnear, hset, ?_⟩
      rw [Nat.add_sub_cancel' hle, Nat.mod_eq_of_lt (by omega)]

/-- A bit whose sum wraps names no hart of the guest. -/
theorem not_names_of_wraps {bit : Nat} (hcount : env.count < 2 ^ 32) (hbase : base ≠ -1)
    (hbit : bit < 64) (hwrap : 2 ^ 64 ≤ base.toNat + bit) :
    ¬ NamesHart env.count mask base hart := by
  rintro ⟨hlt, hall | ⟨hle, -, -⟩⟩
  · exact hbase hall
  · omega

/-- The soft interrupts follow the mask exactly when none of its bits wraps to a hart. -/
theorem softIrq_names_iff (hcount : env.count < 2 ^ 32) :
    (∀ hart, SbiAction.softIrq hart ∈ (handleSbiSendIpi env regs).actions ↔
      NamesHart env.count (regs a0Slot) (regs a1Slot) hart) ↔
    NoneWraps env.count (regs a0Slot) (regs a1Slot) := by
  by_cases hbase : regs a1Slot = -1
  · refine iff_of_true (fun hart => ?_) (.inl hbase)
    exact (softIrq_mem_all hbase).trans ⟨fun h => ⟨h, .inl hbase⟩, And.left⟩
  · constructor
    · intro hsame
      refine .inr fun bit hbit hset hwrap => Nat.not_lt.mp fun hlt => ?_
      have hmod : ((regs a1Slot).toNat + bit) % 2 ^ 64 = (regs a1Slot).toNat + bit - 2 ^ 64 := by
        have := (regs a1Slot).isLt
        omega
      have hsent := (softIrq_mem hbase).mpr ⟨hlt, bit, hbit, hset, hmod⟩
      exact not_names_of_wraps hcount hbase hbit hwrap ((hsame _).mp hsent)
    · intro hnone hart
      refine ⟨fun hsent => ?_, softIrq_of_names hcount⟩
      obtain ⟨hlt, bit, hbit, hset, hsum⟩ := (softIrq_mem hbase).mp hsent
      have hfits : (regs a1Slot).toNat + bit < 2 ^ 64 := by
        by_contra hwrap
        have hfar := (hnone.resolve_left hbase) bit hbit hset (Nat.not_lt.mp hwrap)
        omega
      rw [Nat.mod_eq_of_lt hfits] at hsum
      refine ⟨hlt, .inr ⟨by omega, by omega, ?_⟩⟩
      rwa [← hsum, Nat.add_sub_cancel_left]

/-- `send_ipi` and the fences take a mask for the same harts, those it names, exactly when no bit of
it wraps to a hart of the guest. -/
theorem hart_mask_iff (hcount : env.count < 2 ^ 32) :
    ((∀ hart, SbiAction.softIrq hart ∈ (handleSbiSendIpi env regs).actions ↔
        hart ∈ fenceHarts env (regs a0Slot) (regs a1Slot)) ∧
      ∀ hart, hart ∈ fenceHarts env (regs a0Slot) (regs a1Slot) ↔
        NamesHart env.count (regs a0Slot) (regs a1Slot) hart) ↔
    NoneWraps env.count (regs a0Slot) (regs a1Slot) := by
  rw [← softIrq_names_iff hcount]
  constructor
  · rintro ⟨hsame, hnames⟩ hart
    exact (hsame hart).trans (hnames hart)
  · intro hsent
    exact ⟨fun hart => (hsent hart).trans mem_fenceHarts.symm, fun _ => mem_fenceHarts⟩

end

/-- A guest of two harts, both without affinity. -/
def twoHarts : SbiEnv where
  count := 2
  affinity := fun _ => some (-1)
  cpuId := 0
  cpuCount := 1
  syncFails := fun _ => false
  firmware := fun _ _ => (0, 0)

/-- A call with the given mask and base. -/
def maskCall (mask base : BitVec 64) : CpuUserRegs :=
  CpuUserRegs.set (CpuUserRegs.set (fun _ => 0) a0Slot mask) a1Slot base

theorem hart_mask_iff_two :
    NoneWraps 2 2 0 ∧ ∀ hart,
      SbiAction.softIrq hart ∈ (handleSbiSendIpi twoHarts (maskCall 2 0)).actions ↔
        hart ∈ fenceHarts twoHarts 2 0 := by
  have hnone : NoneWraps 2 2 0 := .inr fun bit _ _ hwrap => by
    have hzero : (0 : BitVec 64).toNat = 0 := rfl
    omega
  exact ⟨hnone, ((@hart_mask_iff twoHarts (maskCall 2 0) (by decide)).mpr hnone).1⟩

/-- Bit 2 over a base of 2^64 - 2 interrupts hart 0, and the fences leave it out. -/
theorem hart_mask_wraps : ¬ ∀ hart,
    (SbiAction.softIrq hart ∈ (handleSbiSendIpi twoHarts (maskCall 4 (-2))).actions ↔
      hart ∈ fenceHarts twoHarts 4 (-2)) := by
  intro hsame
  exact absurd ((hsame 0).mp (by decide)) (by decide)

end HyperCore.Riscv64
