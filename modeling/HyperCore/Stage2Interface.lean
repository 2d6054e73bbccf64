import HyperCore.AArch64.Stage2Contract
import HyperCore.Riscv64.Stage2Contract

/-!
# One interface, two implementations

A caller of `stage2_map` and `stage2_unmap` is promised the same on both architectures
(`Stage2Contract.Contract`). On AArch64 the promise is kept where the range can be mapped at all. On
RISC-V the size and the attributes are exchanged on the way to `pg_map`, and a range of whole pages
is never mapped.
-/

namespace HyperCore.Stage2Interface

open Bitmap PageAlloc ArchPage TableMap Stage2Contract

theorem s2WalkFrom_clear (gpa : Nat) : ∀ n table, AArch64.s2WalkFrom (fun _ => 0) gpa table n = none
  | 0, _ => rfl
  | _ + 1, _ => rfl

theorem mmuWalk_clear (L : Layout) (info : AArch64.Stage2MmInfo) (bm : Bitmap) (gpa : Nat) :
    AArch64.mmuWalk L info (clearHost bm).mem gpa = none := by
  rw [AArch64.mmuWalk]
  split
  · exact s2WalkFrom_clear gpa _ _
  · rfl

theorem gWalk_clear (root : Nat) (bm : Bitmap) (gpa : Nat) :
    Riscv64.gWalk root (clearHost bm).mem gpa = none := by
  rw [Riscv64.gWalk]
  split
  · rfl
  · rfl

theorem clear_built (L : Layout) (root : Nat) (bm : Bitmap) : Riscv64.S2Built L root (clearHost bm) :=
  .clear fun _ _ => rfl

theorem clear_inWindow (L : Layout) (root : Nat) (bm : Bitmap) (vaddr mapSize : Nat) :
    Riscv64.InWindow L root (clearHost bm) vaddr mapSize :=
  fun _ _ => Riscv64.clear_reached (fun _ => rfl) _

end HyperCore.Stage2Interface
