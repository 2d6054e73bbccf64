import HyperCore.Riscv64.Features

/-!
# Where the scanners of the host's device tree stay in the blob

`find_bootargs` and `riscv_features_init` take the blob at its word: neither looks at `totalsize`. They
stay in the blob exactly if it holds the header and what they look at of every token that they reach
(`scanners_stay_iff`). For `find_bootargs` it is enough that the two blocks are in the blob and the strings
end with a NUL (`findBootargs_stays_of_blocks`).
-/

namespace HyperCore.Riscv64.FdtScan

open FlatTree ReadLog CString

/-- The bytes of a blob of `n` bytes. -/
def InBlob (fdt n : Nat) (a : Nat) : Prop := fdt ≤ a ∧ a < fdt + n

/-- A sequence of `n` bytes at `fdt` with the magic number, and its length in `totalsize`. -/
structure Blob (mem : Nat → BitVec 8) (fdt n : Nat) : Prop where
  nonNull : fdt ≠ 0
  magic : readBe32 mem fdt = fdtMagic
  totalsize : (readBe32 mem (fdt + 4)).toNat = n
  sized : 8 ≤ n

section

variable {mem : Nat → BitVec 8} {fdt n : Nat}

/-- The header is in a blob of 40 bytes. -/
theorem header_inBlob : (Word (InBlob fdt n) fdt ∧ Word (InBlob fdt n) (fdt + 8) ∧
    Word (InBlob fdt n) (fdt + 36) ∧ Word (InBlob fdt n) (fdt + 12) ∧ Word (InBlob fdt n) (fdt + 32)) ↔
      40 ≤ n := by
  unfold Word InBlob
  omega

/-- What a scanner looks at is in the blob, for every token that it reaches. -/
def ScanInside (mem : Nat → BitVec 8) (fdt n : Nat) (stops inside : (name value len : Nat) → Prop) :
    Prop :=
  40 ≤ n ∧ ∀ p, Reached mem (header mem fdt) stops p →
    TokenInside (InBlob fdt n) mem (header mem fdt) inside p

theorem findBootargs_stays (h : Blob mem fdt n) : (findBootargs mem fdt).Stays (InBlob fdt n) ↔
    ScanInside mem fdt n (IsBootargs mem) (BootargsInside (InBlob fdt n) mem) := by
  unfold findBootargs
  rw [scanBlob_stays onBootargs_stays onBootargs_stops none h.nonNull h.magic, header_inBlob]
  rfl

theorem riscvFeaturesInit_stays (h : Blob mem fdt n) (g : Features) :
    (∃ rounds, (riscvFeaturesInit mem rounds g fdt).Stays (InBlob fdt n)) ↔
      ScanInside mem fdt n (fun _ _ _ => False) (FeatureInside (InBlob fdt n) mem) := by
  have henough {rounds : Nat} (hR : fdt + n ≤ rounds) :
      (riscvFeaturesInit mem rounds g fdt).Stays (InBlob fdt n) ↔
        ScanInside mem fdt n (fun _ _ _ => False) (FeatureInside (InBlob fdt n) mem) := by
    have hrounds (a : Nat) (ha : InBlob fdt n a) : a < rounds := Nat.lt_of_lt_of_le ha.2 hR
    unfold riscvFeaturesInit
    rw [scanBlob_stays (onFeature_stays hrounds) onFeature_stops g h.nonNull h.magic, header_inBlob]
    rfl
  constructor
  · rintro ⟨rounds, hstays⟩
    have hmore : (riscvFeaturesInit mem rounds g fdt).Extends
        (riscvFeaturesInit mem (max rounds (fdt + n)) g fdt) :=
      scanBlob_extends (onFeature_extends (Nat.le_max_left _ _)) g fdt
    exact (henough (Nat.le_max_right _ _)).mp (hmore.stays hstays)
  · exact fun hin => ⟨fdt + n, (henough (Nat.le_refl _)).mpr hin⟩

/-- Both scanners end and read nothing outside the blob exactly if what each looks at is in the blob. -/
theorem scanners_stay_iff (h : Blob mem fdt n) (g : Features) :
    ((findBootargs mem fdt).Stays (InBlob fdt n) ∧
        ∃ rounds, (riscvFeaturesInit mem rounds g fdt).Stays (InBlob fdt n)) ↔
      ScanInside mem fdt n (IsBootargs mem) (BootargsInside (InBlob fdt n) mem) ∧
        ScanInside mem fdt n (fun _ _ _ => False) (FeatureInside (InBlob fdt n) mem) :=
  and_congr (findBootargs_stays h) (riscvFeaturesInit_stays h g)

/-! ## Blocks that lie in the blob -/

/-- The structure block and the strings block are in the blob, and the strings end with a NUL. -/
structure Blocks (mem : Nat → BitVec 8) (fdt n : Nat) : Prop where
  sized : 40 ≤ n
  struct : (header mem fdt).structEnd ≤ fdt + n
  strings : (header mem fdt).strings + (header mem fdt).stringsSize ≤ fdt + n
  nul : 0 < (header mem fdt).stringsSize →
    mem ((header mem fdt).strings + (header mem fdt).stringsSize - 1) = 0

theorem NextToken.lt {h : Header} {stops : (name value len : Nat) → Prop} {p q : Nat}
    (hnext : NextToken mem h stops p q) : p < q := by
  rcases hnext.2 with ⟨_, rfl⟩ | ⟨_, _, rfl, _⟩ | ⟨_, rfl⟩
  · exact Nat.lt_of_lt_of_le (by omega) (le_align4 _)
  · exact Nat.lt_of_lt_of_le (by omega) (le_align4 _)
  · omega

/-- The scan does not go back. -/
theorem Reached.le {h : Header} {stops : (name value len : Nat) → Prop} {p : Nat}
    (hp : Reached mem h stops p) : h.structp ≤ p := by
  induction hp with
  | refl => exact Nat.le_refl _
  | tail _ hnext ih => exact Nat.le_trans ih (Nat.le_of_lt hnext.lt)

/-- `find_bootargs` stays in a blob whose blocks do, whatever the tokens are. -/
theorem findBootargs_stays_of_blocks (h : Blob mem fdt n) (hb : Blocks mem fdt n) :
    (findBootargs mem fdt).Stays (InBlob fdt n) := by
  refine (findBootargs_stays h).mpr ⟨hb.sized, fun p hp hin => ?_⟩
  have hstruct := hb.struct
  have hstrings := hb.strings
  have hlo : fdt ≤ p := Nat.le_trans (Nat.le_add_right _ _) hp.le
  have hword {q : Nat} (hq : p ≤ q) (hend : q + 4 ≤ (header mem fdt).structEnd) :
      Word (InBlob fdt n) q := by
    unfold Word InBlob
    omega
  refine ⟨hword (Nat.le_refl p) hin, fun _ i hi _ => ?_, fun _ hfits => ⟨hword (by omega) (by omega),
    hword (by omega) (by omega), fun hname => ?_⟩⟩
  · unfold InBlob
    omega
  · -- the comparison ends at the last NUL of the strings block, if not before
    have hstart : fdt ≤ (header mem fdt).strings := Nat.le_add_right _ _
    refine CString.upTo_of_nul (by decide) (by decide) ?_ (hb.nul (Nat.zero_lt_of_lt hname)) ?_
    · omega
    · intro a ha hae
      unfold InBlob
      omega

end

/-! ## Two blobs -/

/-- A blob at 4096: a header for the structure block behind it, and that block. -/
def blobOf (total structSize : BitVec 32) (tokens : List (BitVec 32)) : Nat → BitVec 8 :=
  writeBytes (fun _ => 0) 4096
    (([fdtMagic, total, 40, total, 0, 17, 16, 0, 0, structSize] ++ tokens).flatMap be32)

/-- A blob with one empty node. -/
def nodeBlob : Nat → BitVec 8 := blobOf 56 16 [fdtBeginNode, 0, fdtEndNode, fdtEnd]

theorem nodeBlob_reached {stops : (name value len : Nat) → Prop} {p : Nat}
    (h : Reached nodeBlob (header nodeBlob 4096) stops p) : p = 4136 ∨ p = 4144 ∨ p = 4148 := by
  have hbegin (q : Nat) (hq : NextToken nodeBlob (header nodeBlob 4096) stops 4136 q) : q = 4144 := by
    rcases hq.2 with ⟨_, hq⟩ | ⟨hprop, _⟩ | ⟨hskip, _⟩
    · exact hq.trans (by decide)
    · exact absurd hprop (by decide)
    · exact absurd hskip (by decide)
  have hendNode (q : Nat) (hq : NextToken nodeBlob (header nodeBlob 4096) stops 4144 q) : q = 4148 := by
    rcases hq.2 with ⟨hnode, _⟩ | ⟨hprop, _⟩ | ⟨_, hq⟩
    · exact absurd hnode (by decide)
    · exact absurd hprop (by decide)
    · exact hq
  have hend (q : Nat) : ¬ NextToken nodeBlob (header nodeBlob 4096) stops 4148 q := by
    rintro ⟨-, ⟨hnode, _⟩ | ⟨hprop, _⟩ | ⟨hskip, _⟩⟩
    · exact absurd hnode (by decide)
    · exact absurd hprop (by decide)
    · exact absurd hskip (by decide)
  induction h with
  | refl => exact .inl (by decide)
  | tail _ hq ih =>
    rcases ih with rfl | rfl | rfl
    · exact .inr (.inl (hbegin _ hq))
    · exact .inr (.inr (hendNode _ hq))
    · exact absurd hq (hend _)

theorem nodeBlob_inside {stops inside : (name value len : Nat) → Prop} :
    ScanInside nodeBlob 4096 56 stops inside := by
  have hword {p : Nat} (hlo : 4096 ≤ p) (hhi : p + 3 < 4096 + 56) : Word (InBlob 4096 56) p := by
    unfold Word InBlob
    omega
  refine ⟨by decide, fun p hp _ => ?_⟩
  rcases nodeBlob_reached hp with rfl | rfl | rfl
  · refine ⟨hword (by decide) (by decide), fun _ i hi _ => ?_, fun h => absurd h (by decide)⟩
    have hsize : (header nodeBlob 4096).structEnd - (4136 + 4) = 12 := by decide
    unfold InBlob
    omega
  · exact ⟨hword (by decide) (by decide), fun h => absurd h (by decide), fun h => absurd h (by decide)⟩
  · exact ⟨hword (by decide) (by decide), fun h => absurd h (by decide), fun h => absurd h (by decide)⟩

theorem scanners_stay_node : (findBootargs nodeBlob 4096).Stays (InBlob 4096 56) ∧
    ∃ rounds, (riscvFeaturesInit nodeBlob rounds {} 4096).Stays (InBlob 4096 56) :=
  (scanners_stay_iff ⟨by decide, by decide, by decide, by decide⟩ {}).mpr
    ⟨nodeBlob_inside, nodeBlob_inside⟩

/-- A token that does nothing at the end of a blob whose structure block is said to go on. -/
theorem scanners_stay_fails : Blob (blobOf 44 8 [fdtNop]) 4096 44 ∧
    ¬ (findBootargs (blobOf 44 8 [fdtNop]) 4096).Stays (InBlob 4096 44) ∧
    ¬ ∃ rounds, (riscvFeaturesInit (blobOf 44 8 [fdtNop]) rounds {} 4096).Stays (InBlob 4096 44) := by
  have hblob : Blob (blobOf 44 8 [fdtNop]) 4096 44 := ⟨by decide, by decide, by decide, by decide⟩
  have hout {stops inside : (name value len : Nat) → Prop} :
      ¬ ScanInside (blobOf 44 8 [fdtNop]) 4096 44 stops inside := by
    intro h
    have hnext : NextToken (blobOf 44 8 [fdtNop]) (header (blobOf 44 8 [fdtNop]) 4096) stops 4136 4140 :=
      ⟨by decide, .inr (.inr ⟨.inr (by decide), rfl⟩)⟩
    have hword := (h.2 4140 (.single hnext) (by decide)).1
    exact absurd hword.1.2 (by decide)
  exact ⟨hblob, fun h => hout ((findBootargs_stays hblob).mp h),
    fun h => hout ((riscvFeaturesInit_stays hblob {}).mp h)⟩

end HyperCore.Riscv64.FdtScan
