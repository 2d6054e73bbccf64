import HyperCore.AArch64.HostRoundTrip
import HyperCore.AArch64.Stage2RoundTrip
import HyperCore.Riscv64.RoundTrip
import HyperCore.Stage2Interface

/-!
# Mapping a page and unmapping it

Three pairs of functions: `pg_map` and `pg_unmap_4k` on RISC-V, `stage2_map_4k` and
`stage2_unmap_page` on AArch64, and `__ptw_map_4k_page` and `__ptw_unmap_4k_page` for the hypervisor's
own tables there. In each the allocator hands out pages that the direct map does not show, so that
free pages are not enough.
-/

namespace HyperCore.MapUnmap

open RadixTable Bitmap PageAlloc ArchPage TableMap

/-- `boot_pgtable` at 0x40200000. -/
theorem imageBootPgtable : AArch64.BootPgtable AArch64.imageLayout 0x40200000 :=
  ⟨rfl, by decide, by decide⟩

theorem hostBuilt_clear (L : Layout) (root : Nat) (bm : Bitmap) :
    AArch64.HostBuilt L root (clearHost bm) := .empty fun _ => rfl

/-- A page below an empty root needs three tables. -/
theorem hostNeeded_clear (root : Nat) (bm : Bitmap) (vir : Nat) :
    AArch64.hostNeeded root (clearHost bm) vir = 3 := by
  have hnone (j : Nat) : tableAt AArch64.hostFormat (clearHost bm).mem root (AArch64.hostIndex vir)
      (j + 1) = none := tableAt_of_clear (fun _ => rfl) (Nat.succ_pos j)
  rw [AArch64.hostNeeded]
  simp only [hnone]
  rfl

end HyperCore.MapUnmap
