import HyperCore.Vgic.Refinement

/-!
# Finding a redistributor by its affinity

A guest goes from frame to frame and reads GICR_TYPER until LAST is set; the upper word of the
register is the affinity Aff3.Aff2.Aff1.Aff0 of the frame's vCPU. `gicr_typer` puts the low word
of the configured MPIDR there, which has Aff3 in its upper word, so Aff3 is lost and what the MPIDR
has in bits 31 to 24 takes its place. `gicv3_pcpu_init` compares the upper word of the host's
GICR_TYPER with the MPIDR as if both had Aff3 at the same place. `redist_discovery_iff` says when
the two are right all the same.
-/

namespace HyperCore.Vgic

open ByteMem MachineInt

/-! ## Affinities -/

/-- Aff3.Aff2.Aff1.Aff0 of an MPIDR, as GICR_TYPER has them. -/
def packedAff (mpidr : Nat) : Nat := (mpidr >>> 32 &&& 0xff) <<< 24 ||| mpidr &&& 0xffffff

/-- GICR_TYPER.Affinity_Value -/
def typerAff (typer : Nat) : Nat := typer >>> 32

/-- GICR_TYPER.Last -/
def typerLast (typer : Nat) : Bool := typer.testBit 4

/-- MPIDR.Aff3 -/
def aff3 (mpidr : Nat) : Nat := mpidr / 2 ^ 32 % 2 ^ 8

/-- Aff2.Aff1.Aff0, which both registers have in the same order. -/
def lowAff (mpidr : Nat) : Nat := mpidr % 2 ^ 24

/-- The bits of an MPIDR between Aff2 and Aff3: U, MT and those without a meaning. -/
def mpidrFlags (mpidr : Nat) : Nat := mpidr / 2 ^ 24 % 2 ^ 8

theorem packedAff_eq (mpidr : Nat) : packedAff mpidr = 2 ^ 24 * aff3 mpidr + lowAff mpidr := by
  have hlow : mpidr &&& 0xffffff = lowAff mpidr := Nat.and_two_pow_sub_one_eq_mod mpidr 24
  have hhigh : mpidr >>> 32 &&& 0xff = aff3 mpidr := by
    rw [Nat.shiftRight_eq_div_pow]
    exact Nat.and_two_pow_sub_one_eq_mod _ 8
  rw [packedAff, hlow, hhigh, Nat.shiftLeft_eq, Nat.mul_comm]
  exact (Nat.two_pow_add_eq_or_of_lt (Nat.mod_lt _ (by decide)) _).symm

theorem lowWord_eq (mpidr : Nat) : mpidr % 2 ^ 32 = 2 ^ 24 * mpidrFlags mpidr + lowAff mpidr := by
  unfold mpidrFlags lowAff
  omega

theorem packedAff_inj {m m' : Nat} :
    packedAff m = packedAff m' ↔ aff3 m = aff3 m' ∧ lowAff m = lowAff m' := by
  rw [packedAff_eq, packedAff_eq]
  unfold lowAff
  omega

/-- The low word is the packed affinity of an MPIDR when its flags are that one's Aff3. -/
theorem lowWord_eq_packedAff {m m' : Nat} :
    m % 2 ^ 32 = packedAff m' ↔ mpidrFlags m = aff3 m' ∧ lowAff m = lowAff m' := by
  rw [lowWord_eq, packedAff_eq]
  unfold lowAff
  omega

/-! ## The emulated frames -/

section

variable {cfg : VgicConfig} {frame : Nat}

theorem gicrTyper_testBit (hframe : frame < cfg.vcpuCount) (j : Nat) :
    (gicrTyper cfg frame).testBit j =
      ((decide (8 ≤ j) && (frame &&& 0xffff).testBit (j - 8)) ||
        (decide (32 ≤ j) && (cfg.vcpuMpidr frame % 2 ^ 32).testBit (j - 32)) ||
        (decide (frame = cfg.vcpuCount - 1) && decide (j = 4))) := by
  have hmask : cfg.vcpuMpidr frame &&& 0xffffffff = cfg.vcpuMpidr frame % 2 ^ 32 :=
    Nat.and_two_pow_sub_one_eq_mod _ 32
  have hpos : cfg.vcpuCount ≠ 0 := Nat.ne_of_gt (Nat.zero_lt_of_lt hframe)
  have hfour : (1 <<< 4 : Nat).testBit j = decide (j = 4) := by
    rw [show (1 <<< 4 : Nat) = 2 ^ 4 from rfl, Nat.testBit_two_pow]
    exact decide_eq_decide.mpr eq_comm
  unfold gicrTyper
  simp only [if_pos hframe, hmask, hpos, ne_eq, not_false_eq_true, true_and]
  split
  · next hlast =>
    simp only [Nat.testBit_or, Nat.testBit_shiftLeft, hfour, ge_iff_le, decide_eq_true hlast,
      Bool.true_and]
  · next hlast =>
    simp only [Nat.testBit_or, Nat.testBit_shiftLeft, ge_iff_le, decide_eq_false hlast,
      Bool.false_and, Bool.or_false]

theorem gicrTyper_last (hframe : frame < cfg.vcpuCount) :
    typerLast (gicrTyper cfg frame) = decide (frame = cfg.vcpuCount - 1) := by
  rw [typerLast, gicrTyper_testBit hframe]
  simp

/-- The affinity that a frame shows is the low word of the configured MPIDR. -/
theorem gicrTyper_aff (hframe : frame < cfg.vcpuCount) :
    typerAff (gicrTyper cfg frame) = cfg.vcpuMpidr frame % 2 ^ 32 := by
  refine Nat.eq_of_testBit_eq fun j => ?_
  have hshort : (frame &&& 0xffff).testBit (24 + j) = false := by
    refine Nat.testBit_lt_two_pow (Nat.lt_of_le_of_lt Nat.and_le_right ?_)
    exact Nat.lt_of_lt_of_le (by decide) (Nat.pow_le_pow_right (by decide) (Nat.le_add_right 24 j))
  rw [typerAff, Nat.testBit_shiftRight, gicrTyper_testBit hframe,
    show 32 + j - 8 = 24 + j by omega, Nat.add_sub_cancel_left, hshort]
  simp
  omega

/-! ## The scan -/

/-- The frame of each vCPU lies in the window. -/
def FramesFit (cfg : VgicConfig) : Prop := cfg.vcpuCount * cfg.gicrStride ≤ cfg.gicrSize

instance (cfg : VgicConfig) : Decidable (FramesFit cfg) :=
  inferInstanceAs (Decidable (cfg.vcpuCount * cfg.gicrStride ≤ cfg.gicrSize))

/-- A guest reads GICR_TYPER of the frames from `frame` on, up to the first with LAST. -/
def scanFrames (cfg : VgicConfig) : (fuel frame : Nat) → Mem → Option (List Nat)
  | 0, _, _ => none
  | fuel + 1, frame, m =>
    let typer := gic3Read cfg (cfg.gicrBase + (frame * cfg.gicrStride + 8)) 3 m
    if typerLast typer.1 then some [typer.1]
    else (scanFrames cfg fuel (frame + 1) typer.2).map (typer.1 :: ·)

theorem read_typer (hwin : Windows cfg) (hfit : FramesFit cfg) (hmax : cfg.vcpuCount ≤ hyperMaxVcpus)
    (hframe : frame < cfg.vcpuCount) (m : Mem) :
    gic3Read cfg (cfg.gicrBase + (frame * cfg.gicrStride + 8)) 3 m = (gicrTyper cfg frame, m) := by
  have hstride := hwin.stride
  have hroom : frame * cfg.gicrStride + cfg.gicrStride ≤ cfg.gicrSize := by
    rw [← Nat.succ_mul]
    exact Nat.le_trans (Nat.mul_le_mul_right _ hframe) hfit
  obtain ⟨hin, hidx, hoff⟩ := inGicr_frame hwin (Nat.lt_of_lt_of_le hframe hmax)
    (by decide : 8 < 0x20000) (by omega)
  have hvalid : ¬ hyperMaxVcpus ≤ frame := Nat.not_le.mpr (Nat.lt_of_lt_of_le hframe hmax)
  rw [gic3Read, if_pos hin, redistRead]
  simp only [hidx, hoff, if_neg hvalid]
  rfl

/-- From any frame on, the scan ends at the last vCPU's. -/
theorem scanFrames_from (hwin : Windows cfg) (hfit : FramesFit cfg)
    (hmax : cfg.vcpuCount ≤ hyperMaxVcpus) (m : Mem) (left : Nat) :
    ∀ frame fuel, frame + left + 1 = cfg.vcpuCount → left < fuel →
      scanFrames cfg fuel frame m =
        some ((List.range' frame (left + 1)).map (gicrTyper cfg)) := by
  induction left with
  | zero =>
    intro frame fuel hend hfuel
    obtain ⟨fuel, rfl⟩ := Nat.exists_eq_add_one.mpr hfuel
    have hlt : frame < cfg.vcpuCount := by omega
    simp only [scanFrames, read_typer hwin hfit hmax hlt, gicrTyper_last hlt]
    rw [if_pos (decide_eq_true (by omega))]
    rfl
  | succ left ih =>
    intro frame fuel hend hfuel
    obtain ⟨fuel, rfl⟩ := Nat.exists_eq_add_one.mpr (Nat.zero_lt_of_lt hfuel)
    have hlt : frame < cfg.vcpuCount := by omega
    simp only [scanFrames, read_typer hwin hfit hmax hlt, gicrTyper_last hlt]
    rw [if_neg (by rw [decide_eq_true_eq]; omega), ih (frame + 1) fuel (by omega) (by omega)]
    rfl

theorem scanFrames_eq (hwin : Windows cfg) (hfit : FramesFit cfg)
    (hmax : cfg.vcpuCount ≤ hyperMaxVcpus) (hpos : 0 < cfg.vcpuCount) (m : Mem) {fuel : Nat}
    (hfuel : cfg.vcpuCount ≤ fuel) :
    scanFrames cfg fuel 0 m = some ((List.range cfg.vcpuCount).map (gicrTyper cfg)) := by
  rw [scanFrames_from hwin hfit hmax m (cfg.vcpuCount - 1) 0 fuel (by omega) (by omega),
    List.range_eq_range', Nat.sub_add_cancel hpos]

/-! ## The affinities of the frames -/

/-- Each configured affinity is shown by its own frame and by no other. -/
def OwnFrame (cfg : VgicConfig) (typer : Nat → Nat) : Prop :=
  ∀ i < cfg.vcpuCount, ∀ frame < cfg.vcpuCount,
    typerAff (typer frame) = packedAff (cfg.vcpuMpidr i) ↔ frame = i

/-- Each configured affinity is shown by exactly one frame. -/
def OneFrame (cfg : VgicConfig) (typer : Nat → Nat) : Prop :=
  ∀ i < cfg.vcpuCount, ∃! frame, frame < cfg.vcpuCount ∧
    typerAff (typer frame) = packedAff (cfg.vcpuMpidr i)

/-- No two vCPUs have the same affinity. -/
def Distinct (cfg : VgicConfig) : Prop :=
  ∀ i < cfg.vcpuCount, ∀ j < cfg.vcpuCount,
    packedAff (cfg.vcpuMpidr i) = packedAff (cfg.vcpuMpidr j) → i = j

instance (cfg : VgicConfig) : Decidable (Distinct cfg) :=
  inferInstanceAs (Decidable (∀ i < cfg.vcpuCount, ∀ j < cfg.vcpuCount,
    packedAff (cfg.vcpuMpidr i) = packedAff (cfg.vcpuMpidr j) → i = j))

theorem ownFrame_iff : OwnFrame cfg (gicrTyper cfg) ↔
    (∀ i < cfg.vcpuCount, mpidrFlags (cfg.vcpuMpidr i) = aff3 (cfg.vcpuMpidr i)) ∧
      Distinct cfg := by
  constructor
  · intro hown
    have hself : ∀ i < cfg.vcpuCount,
        cfg.vcpuMpidr i % 2 ^ 32 = packedAff (cfg.vcpuMpidr i) := by
      intro i hi
      rw [← gicrTyper_aff hi]
      exact (hown i hi i hi).mpr rfl
    refine ⟨fun i hi => (lowWord_eq_packedAff.mp (hself i hi)).1, fun i hi j hj he => ?_⟩
    refine (hown j hj i hi).mp ?_
    rw [gicrTyper_aff hi, hself i hi, he]
  · rintro ⟨hflags, hdist⟩ i hi frame hframe
    rw [gicrTyper_aff hframe, lowWord_eq_packedAff.mpr ⟨hflags frame hframe, rfl⟩]
    exact ⟨hdist frame hframe i hi, fun he => he ▸ rfl⟩

theorem OwnFrame.oneFrame {typer : Nat → Nat} (h : OwnFrame cfg typer) : OneFrame cfg typer :=
  fun i hi => ⟨i, ⟨hi, (h i hi i hi).mpr rfl⟩, fun frame hf => (h i hi frame hf.1).mp hf.2⟩

/-- Without flags, a frame that shows an affinity is one with Aff3 = 0. -/
theorem oneFrame_iff (hflags : ∀ i < cfg.vcpuCount, mpidrFlags (cfg.vcpuMpidr i) = 0) :
    OneFrame cfg (gicrTyper cfg) ↔
      (∀ i < cfg.vcpuCount, aff3 (cfg.vcpuMpidr i) = 0) ∧ Distinct cfg := by
  constructor
  · intro hone
    have hzero : ∀ i < cfg.vcpuCount, aff3 (cfg.vcpuMpidr i) = 0 := by
      intro i hi
      obtain ⟨frame, ⟨hframe, haff⟩, -⟩ := hone i hi
      rw [gicrTyper_aff hframe, lowWord_eq_packedAff, hflags frame hframe] at haff
      exact haff.1.symm
    have hself : ∀ i < cfg.vcpuCount,
        typerAff (gicrTyper cfg i) = packedAff (cfg.vcpuMpidr i) := by
      intro i hi
      rw [gicrTyper_aff hi, lowWord_eq_packedAff, hflags i hi, hzero i hi]
      exact ⟨rfl, rfl⟩
    exact ⟨hzero, fun i hi j hj he =>
      (hone i hi).unique ⟨hi, hself i hi⟩ ⟨hj, (hself j hj).trans he.symm⟩⟩
  · rintro ⟨hzero, hdist⟩
    refine (ownFrame_iff.mpr ⟨fun i hi => ?_, hdist⟩).oneFrame
    rw [hflags i hi, hzero i hi]

end

/-! ## The host's redistributors -/

/-- `gicv3_pcpu_init` up to the check of GICR_TYPER: the redistributor that it goes on to wake up,
if it does not skip it. -/
def gicv3PcpuInit (gicrVirt gicrStride : Nat) (readTyper : Nat → Nat) (mpidrEl1 pcpuId : Nat) :
    Option Nat :=
  let gicrBase := (gicrVirt + pcpuId * gicrStride) % 2 ^ 64
  let rdistAff := readTyper gicrBase >>> 32 &&& 0xff00ffffff
  let myAff := mpidrEl1 &&& 0xff00ffffff
  if rdistAff ≠ myAff then none else some gicrBase

/-- The mask leaves Aff3 where the MPIDR has it. -/
theorem affMask_eq (mpidr : Nat) :
    mpidr &&& 0xff00ffffff = 2 ^ 32 * aff3 mpidr + lowAff mpidr := by
  have hlow : mpidr &&& 0xffffff = lowAff mpidr := Nat.and_two_pow_sub_one_eq_mod mpidr 24
  have hhigh : mpidr &&& 0xff <<< 32 = aff3 mpidr <<< 32 := by
    have hbyte : aff3 mpidr = mpidr >>> 32 &&& 0xff := by
      rw [Nat.shiftRight_eq_div_pow]
      exact (Nat.and_two_pow_sub_one_eq_mod _ 8).symm
    rw [hbyte]
    refine Nat.eq_of_testBit_eq fun j => ?_
    rw [Nat.testBit_and, Nat.testBit_shiftLeft, Nat.testBit_shiftLeft, Nat.testBit_and,
      Nat.testBit_shiftRight]
    by_cases hj : 32 ≤ j
    · rw [Nat.add_sub_cancel' hj]
      exact Bool.and_left_comm _ _ _
    · simp [hj]
  have hlt : lowAff mpidr < 2 ^ 32 := Nat.lt_of_lt_of_le (Nat.mod_lt _ (by decide)) (by decide)
  rw [show (0xff00ffffff : Nat) = 0xff <<< 32 ||| 0xffffff from rfl, Nat.and_or_distrib_left, hhigh,
    hlow, Nat.shiftLeft_eq, Nat.mul_comm]
  exact (Nat.two_pow_add_eq_or_of_lt hlt _).symm

section

variable {gicrVirt gicrStride mpidrEl1 pcpuId typer : Nat} {readTyper : Nat → Nat}

theorem pcpuInit_isSome_iff
    (hread : readTyper ((gicrVirt + pcpuId * gicrStride) % 2 ^ 64) = typer) (htyper : typer < 2 ^ 64) :
    (gicv3PcpuInit gicrVirt gicrStride readTyper mpidrEl1 pcpuId).isSome = true ↔
      aff3 mpidrEl1 = 0 ∧ lowAff (typerAff typer) = lowAff mpidrEl1 := by
  have hword : typerAff typer < 2 ^ 32 := by
    rw [typerAff, Nat.shiftRight_eq_div_pow]
    omega
  have hzero : aff3 (typerAff typer) = 0 := by
    unfold aff3
    omega
  have hsame : typer >>> 32 &&& 0xff00ffffff = mpidrEl1 &&& 0xff00ffffff ↔
      aff3 mpidrEl1 = 0 ∧ lowAff (typerAff typer) = lowAff mpidrEl1 := by
    change typerAff typer &&& 0xff00ffffff = _ ↔ _
    rw [affMask_eq, affMask_eq, hzero]
    unfold lowAff
    omega
  rw [← hsame]
  unfold gicv3PcpuInit
  simp only [hread]
  split
  · next hne => exact iff_of_false Bool.false_ne_true hne
  · next heq => exact iff_of_true rfl (not_not.mp heq)

/-- The host finds its redistributor as the registers say when the MPIDR has no Aff3 that decides. -/
theorem pcpuInit_matches_iff
    (hread : readTyper ((gicrVirt + pcpuId * gicrStride) % 2 ^ 64) = typer) (htyper : typer < 2 ^ 64) :
    ((gicv3PcpuInit gicrVirt gicrStride readTyper mpidrEl1 pcpuId).isSome = true ↔
        typerAff typer = packedAff mpidrEl1) ↔
      lowAff (typerAff typer) ≠ lowAff mpidrEl1 ∨
        (aff3 mpidrEl1 = 0 ↔ mpidrFlags (typerAff typer) = aff3 mpidrEl1) := by
  have hword : typerAff typer % 2 ^ 32 = typerAff typer := by
    rw [typerAff, Nat.shiftRight_eq_div_pow]
    omega
  rw [pcpuInit_isSome_iff hread htyper, ← hword, lowWord_eq_packedAff, hword]
  grind

end

/-! ## Discovery -/

/-- The scan reads the frames of all vCPUs and stops. Each affinity is then shown by its own frame
exactly when the configured MPIDRs have the same byte above Aff2 as Aff3, and, if they have no flags
there, by exactly one frame exactly when they have no Aff3. The host recognises its redistributor
exactly when Aff3 is 0 wherever it would have to decide. -/
theorem redist_discovery_iff {cfg : VgicConfig} (hwin : Windows cfg) (hfit : FramesFit cfg)
    (hpos : 0 < cfg.vcpuCount) (hmax : cfg.vcpuCount ≤ hyperMaxVcpus) (m : Mem) {fuel : Nat}
    (hfuel : cfg.vcpuCount ≤ fuel) (gicrVirt gicrStride mpidrEl1 pcpuId : Nat)
    (readTyper : Nat → BitVec 64) :
    (∃ typer, scanFrames cfg fuel 0 m = some ((List.range cfg.vcpuCount).map typer) ∧
      (OwnFrame cfg typer ↔
        (∀ i < cfg.vcpuCount, mpidrFlags (cfg.vcpuMpidr i) = aff3 (cfg.vcpuMpidr i)) ∧
          Distinct cfg) ∧
      ((∀ i < cfg.vcpuCount, mpidrFlags (cfg.vcpuMpidr i) = 0) →
        (OneFrame cfg typer ↔
          (∀ i < cfg.vcpuCount, aff3 (cfg.vcpuMpidr i) = 0) ∧ Distinct cfg))) ∧
    (((gicv3PcpuInit gicrVirt gicrStride (fun a => (readTyper a).toNat) mpidrEl1 pcpuId).isSome =
          true ↔
        typerAff (readTyper ((gicrVirt + pcpuId * gicrStride) % 2 ^ 64)).toNat =
          packedAff mpidrEl1) ↔
      lowAff (typerAff (readTyper ((gicrVirt + pcpuId * gicrStride) % 2 ^ 64)).toNat) ≠
          lowAff mpidrEl1 ∨
        (aff3 mpidrEl1 = 0 ↔
          mpidrFlags (typerAff (readTyper ((gicrVirt + pcpuId * gicrStride) % 2 ^ 64)).toNat) =
            aff3 mpidrEl1)) :=
  ⟨⟨gicrTyper cfg, scanFrames_eq hwin hfit hmax hpos m hfuel, ownFrame_iff, oneFrame_iff⟩,
    pcpuInit_matches_iff rfl (BitVec.isLt _)⟩

theorem windows_qemu : Windows qemuVgic := by
  constructor <;> decide

theorem redist_discovery_iff_qemu :
    ∃ typer, scanFrames qemuVgic 4 0 ⟨gicRegisterEmul, []⟩ = some ((List.range 4).map typer) ∧
      OneFrame qemuVgic typer := by
  obtain ⟨⟨typer, hscan, -, hone⟩, -⟩ := redist_discovery_iff windows_qemu (by decide)
    (by decide) (by decide) ⟨gicRegisterEmul, []⟩ (by decide : qemuVgic.vcpuCount ≤ 4) 0 0 0 0
    fun _ => 0
  exact ⟨typer, hscan, (hone (by decide)).mpr ⟨by decide, by decide⟩⟩

/-- Two vCPUs that differ in Aff3 only. -/
def twoAff3 : VgicConfig :=
  { qemuVgic with vcpuCount := 2, vcpuMpidr := fun i => i <<< 32 }

/-- Both frames show the affinity 0, so the first vCPU has two frames and the second none; a host
CPU with Aff3 = 1 skips its own redistributor. -/
theorem aff3_not_found :
    scanFrames twoAff3 2 0 ⟨gicRegisterEmul, []⟩ =
        some ((List.range 2).map (gicrTyper twoAff3)) ∧
      ¬ OneFrame twoAff3 (gicrTyper twoAff3) ∧
      (typerAff 0x0100000000000010 = packedAff 0x100000000 ∧
        gicv3PcpuInit 0 0x20000 (fun _ => 0x0100000000000010) 0x100000000 0 = none) := by
  refine ⟨rfl, fun h => ?_, rfl, rfl⟩
  have hzero := ((oneFrame_iff (by decide)).mp h).1 1 (by decide)
  exact absurd hzero (by decide)

end HyperCore.Vgic
