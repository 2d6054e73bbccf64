import HyperCore.AArch64.Stage2Contract

/-!
# Mapping a page and unmapping it, on AArch64 stage 2

`stage2_map_4k` and `stage2_unmap_page` are inverse to each other exactly when the slot that the 9-bit
indices give the page is empty, and its tables fit into the direct map (`s2_round_trip_iff`). With a
concatenated root the slot can be that of another page, which is then lost.
-/

namespace HyperCore.AArch64

open RadixTable Bitmap PageAlloc ArchPage TableMap

section

variable {L : Layout} {info : Stage2MmInfo} {h h' : Host} {q vaddr paddr : Nat}

/-- The page whose slot `vaddr` takes. -/
def slotAddr (info : Stage2MmInfo) (vaddr : Nat) : Nat := vaddr % 2 ^ reachBits info

theorem slotAddr_lt (info : Stage2MmInfo) (vaddr : Nat) : slotAddr info vaddr < 2 ^ reachBits info :=
  Nat.mod_lt _ (Nat.two_pow_pos _)

/-- The walk of the slot is that of the page's indices. -/
theorem mmuWalk_slot (ht : Stage2Tree L info h q) (hsize : vaddr < 2 ^ info.paSize) :
    mmuWalk L info h.mem (slotAddr info vaddr) =
      lookup (s2Mapper L).format (s2Leaf (slotAddr info vaddr)) h.mem (L.physPage q)
        (3 - info.lookupLevel) (s2Index info.lookupLevel vaddr) := by
  have hlt : slotAddr info vaddr < 2 ^ info.paSize :=
    Nat.lt_of_le_of_lt (Nat.mod_le vaddr (2 ^ reachBits info)) hsize
  rw [mmuWalk_low ht hlt (slotAddr_lt info vaddr)]
  exact lookup_congr (s2Index_mod ht.level vaddr)

/-- An empty slot has no live entry. -/
theorem Stage2Inv.empty {idx : Nat → Fin 512} {gpa : Nat} (hi : Stage2Inv L info h q)
    (hnone : lookup (s2Mapper L).format (s2Leaf gpa) h.mem (L.physPage q) (3 - info.lookupLevel) idx =
      none) :
    lookup (s2Mapper L).format (s2Mapper L).alive h.mem (L.physPage q) (3 - info.lookupLevel) idx =
      none := by
  cases hal : lookup (s2Mapper L).format (s2Mapper L).alive h.mem (L.physPage q)
    (3 - info.lookupLevel) idx with
  | none => rfl
  | some u =>
    obtain ⟨_, hpage⟩ := Option.isSome_iff_exists.mp (hi.pages idx (Option.isSome_of_eq_some hal))
    obtain ⟨b, hb, hd⟩ := Option.bind_eq_some_iff.mp hpage
    rw [lookup, hb, Option.bind_some, s2Leaf] at hnone
    rw [s2Page] at hd
    split at hd
    · next hlive =>
      rw [if_pos hlive] at hnone
      cases hnone
    · cases hd

/-- The tables that a page lacks. -/
theorem s2Needed_page (ht : Stage2Tree L info h q) (hv : vaddr < 2 ^ 64) :
    s2Needed L info h vaddr pageSize = missing (s2Mapper L) (L.physPage q) h
      (s2Index info.lookupLevel vaddr) (3 - info.lookupLevel) := by
  have hindex : rangeIndex info vaddr 0 = s2Index info.lookupLevel vaddr := by
    rw [rangeIndex, Nat.mul_zero, Nat.add_zero, Nat.mod_eq_of_lt hv]
  rw [s2Needed, ht.rootPhys_eq, show pageCount pageSize = 1 by decide, missing_first ht.tables, hindex]

theorem stage2UnmapPage_eq (L : Layout) (hl : info.lookupLevel ≤ 3) (vaddr : Nat) :
    stage2UnmapPage L vaddr (3 - info.lookupLevel) info.rootTable =
      (s2Mapper L).unmapAt (s2Index info.lookupLevel vaddr) (3 - info.lookupLevel) 0
        info.rootTable :=
  unmapPage_eq L vaddr (Nat.add_sub_cancel' hl) (3 - info.lookupLevel) (Nat.zero_add _)

/-- In every tree that the code makes, with enough free pages in the allocator: mapping a page and
unmapping it again leaves every translation and the allocator as they were exactly when its slot is
empty and its tables fit into the direct map. -/
theorem s2_round_trip_iff {code : Fin 8} (hw : Worked L code info h)
    (hsize : vaddr < 2 ^ info.paSize) (hphy : paddr % 4096 = 0) (hpos : 0 < paddr)
    (hlt : paddr < 2 ^ 48) (attr : MemType) (acc : MemAccess)
    (henough : s2Needed L info h vaddr pageSize ≤ evenFree h.bitmap (totalPages / 2)) :
    RoundTrip (mmuWalk L info)
        (stage2Map4k L info.rootTable info.lookupLevel vaddr paddr attr acc)
        (stage2UnmapPage L vaddr (3 - info.lookupLevel) info.rootTable) h ↔
      mmuWalk L info h.mem (slotAddr info vaddr) = none ∧
        s2Needed L info h vaddr pageSize ≤ evenFree h.bitmap (2 ^ 17) := by
  obtain ⟨q, hi, hg⟩ := hw.inv
  have ht := hi.tree
  have hv : vaddr < 2 ^ 64 := Nat.lt_of_lt_of_le hsize (pow_bits_le hg.block.2.2)
  rw [s2Needed_page ht hv] at henough ⊢
  rw [stage2Map4k_eq L info.rootTable vaddr paddr attr acc ht.level, stage2UnmapPage_eq L ht.level]
  -- what the walks find after both calls, once they have returned
  have hsame {h₁ h₂ : Host} (hgrown : Grown (s2Mapper L) (L.physPage q) (3 - info.lookupLevel)
        (fun idx' j => AgreeTo j idx' (s2Index info.lookupLevel vaddr))
        (missing (s2Mapper L) (L.physPage q) h (s2Index info.lookupLevel vaddr)
          (3 - info.lookupLevel)) h h₁)
      (hpruned : Pruned (s2Mapper L) (L.physPage q) (3 - info.lookupLevel)
        (s2Index info.lookupLevel vaddr) 0 h₁ h₂) : Stage2Tree L info h₂ q :=
    (ht.grown hgrown).pruned hpruned
  constructor
  · rintro ⟨h₁, h₂, hrun, hrun₂, hwalks, -⟩
    obtain ⟨-, hfree⟩ := mapPage_room ht.tables ht.at_root (s2Mapper_blindHigh L)
      (s2Mapper_faultsHigh L) henough hrun
    obtain ⟨hgrown, hpruned⟩ := mapped_unmapped ht.tables ht.at_root ht.root_ne
      (s2Mapper_blindHigh L) (ht.sees _) hfree hrun hrun₂
    refine ⟨?_, hfree⟩
    rw [← hwalks, mmuWalk_slot (hsame hgrown hpruned) hsize, hpruned.walks _ fun _ => s2Leaf_dead,
      if_pos (AgreeTo.refl _ _)]
  · rintro ⟨hnone, hfree⟩
    rw [mmuWalk_slot ht hsize] at hnone
    have hlive : (s2Mapper L).live (makeStage2Entry paddr attr acc) = true :=
      validBit_make paddr attr acc
    have hbase : (s2Mapper L).base (makeStage2Entry paddr attr acc) ≠ 0 := by
      have haddr := base_make attr acc hphy hlt
      show baseField (makeStage2Entry paddr attr acc) * 4096 ≠ 0
      omega
    obtain ⟨h₁, h₂, hrun, hrun₂, -, hu⟩ := mapPage_undone ht.tables hi.trim ht.at_root ht.root_ne
      (ht.sees _) (hi.empty hnone) hlive hbase hfree
    obtain ⟨hgrown, hpruned⟩ := mapped_unmapped ht.tables ht.at_root ht.root_ne
      (s2Mapper_blindHigh L) (ht.sees _) hfree hrun hrun₂
    exact ⟨h₁, h₂, hrun, hrun₂, fun gpa => mmuWalk_same ht (hsame hgrown hpruned) hg
      fun _ => hu.walks (s2Leaf gpa) (fun _ => s2Leaf_dead) _, hu.bitmap⟩

end

end HyperCore.AArch64
