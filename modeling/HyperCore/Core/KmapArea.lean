import HyperCore.Core.TableMap

/-!
# `ioremap.c`: the addresses of the `kmap` area

One bit for each page of the area says whether its address is given away. The words of the bitmap come
from `kmalloc`, and `create_bitmap` clears 4567 of their bytes, so the pages from 36536 on begin with
whatever the heap held (`bit_createBitmap`). A request takes the first pages in a row that it fits into
(`bitmapAllocRange_first`); nothing tells an index past the end from a page of the area.
-/

namespace HyperCore.KmapArea

open Scan MachineInt Bitmap PageAlloc ArchPage TableMap

/-- `KMAP_VIRT_START` -/
def kmapVirtStart : Nat := 0xE0 * 2 ^ 32

/-- `KMAP_VIRT_END` -/
def kmapVirtEnd : Nat := 0xE01000 * 2 ^ 16

/-- `bitmap_t`: `data` are the words behind the pointer. -/
structure BitmapT where
  data : Bitmap
  start : Nat
  eleSize : Int
  bitNr : Nat

/-- `memset(data, 0, n)` on 64-bit words: byte `i` is in word `i / 8`, the lowest one first. -/
def zeroBytes (bm : Bitmap) (n : Nat) : Bitmap := fun w =>
  bm w >>> (8 * min 8 (n - 8 * w)) <<< (8 * min 8 (n - 8 * w))

/-- `create_bitmap`, where `kmalloc` returns memory that holds `heap`. -/
def createBitmap (heap : Bitmap) (start : Nat) (eleSize bitNr : Int) : BitmapT where
  data := zeroBytes heap 4567
  start := start
  eleSize := eleSize
  bitNr := toUInt64 bitNr

/-- `bitmap_alloc_range`. The count is cut to `uint32_t` for the search and to `int` for the bits. -/
def bitmapAllocRange (bt : BitmapT) (size : Nat) : Nat × BitmapT :=
  let cnt := pageCount size
  let idx := findNextZeroArea bt.data bt.bitNr 0 (cnt % 2 ^ 32) 0
  (toUInt64 (bt.start + idx * bt.eleSize),
    { bt with data := setBits bt.data (toInt32 idx) (toInt32 cnt) })

/-- The bitmap that `init_kmap` creates. -/
def initKmap (heap : Bitmap) : BitmapT :=
  createBitmap heap kmapVirtStart pageSize (toInt32 ((kmapVirtEnd - kmapVirtStart) / pageSize : Nat))

/-- The number of pages of the area. -/
def kmapPageNum : Nat := 65536

/-- The address of page `n` of the area. -/
def kmapPage (n : Nat) : Nat := kmapVirtStart + pageSize * n

/-- The first `cnt` pages in a row that are not given away begin with page `n`. -/
def FirstFree (bm : Bitmap) (cnt n : Nat) : Prop :=
  FirstFit (fun i => bit bm i = true) kmapPageNum cnt 1 0 0 n

/-! ## The bits of a new bitmap -/

theorem bit_zeroBytes (bm : Bitmap) (n i : Nat) :
    bit (zeroBytes bm n) i = (decide (8 * n ≤ i) && bit bm i) := by
  have hj : i % 64 < 64 := Nat.mod_lt _ (by decide)
  rw [bit, zeroBytes, BitVec.getLsbD_shiftLeft, BitVec.getLsbD_ushiftRight, bit]
  by_cases hlt : i < 8 * n
  · have hs : i % 64 < 8 * min 8 (n - 8 * (i / 64)) := by omega
    simp [hs, Nat.not_le.mpr hlt]
  · have hs : 8 * min 8 (n - 8 * (i / 64)) ≤ i % 64 := by omega
    rw [Nat.add_sub_of_le hs]
    simp [hj, Nat.not_lt.mpr hs, Nat.le_of_not_lt hlt]

/-- The first 36536 bits are clear, the others those of the heap. -/
theorem bit_createBitmap (heap : Bitmap) (start : Nat) (eleSize bitNr : Int) (i : Nat) :
    bit (createBitmap heap start eleSize bitNr).data i = (decide (36536 ≤ i) && bit heap i) :=
  bit_zeroBytes heap 4567 i

/-- A bitmap of the area. -/
structure OfKmap (bt : BitmapT) : Prop where
  start : bt.start = kmapVirtStart
  eleSize : bt.eleSize = pageSize
  bitNr : bt.bitNr = kmapPageNum

theorem kmap_bitNr : toUInt64 (toInt32 ((kmapVirtEnd - kmapVirtStart) / pageSize : Nat)) = kmapPageNum := by
  decide

theorem initKmap_ofKmap (heap : Bitmap) : OfKmap (initKmap heap) := ⟨rfl, rfl, kmap_bitNr⟩

/-! ## One request -/

variable {bm : Bitmap} {bt : BitmapT} {cnt n size : Nat}

/-- The search finds the first free pages. -/
theorem findNextZeroArea_first (hcnt : 0 < cnt) (hn : FirstFree bm cnt n) :
    findNextZeroArea bm kmapPageNum 0 cnt 0 = n := by
  rcases findNextZeroAreaOff_spec bm kmapPageNum 0 0 0 hcnt with hff | ⟨-, hno⟩
  · exact Nat.le_antisymm (hff.least n (Nat.zero_le n) hn.fits) (hn.least _ (Nat.zero_le _) hff.fits)
  · exact absurd hn.fits (hno n (Nat.zero_le n))

/-- A search for no pages stays in the area. -/
theorem findNextZeroArea_empty (bm : Bitmap) (nr : Nat) : findNextZeroArea bm nr 0 0 0 ≤ nr := by
  have hz := (findNextZeroBit_first bm nr 0).le_hi
  have hno : ∀ index, findNextBit bm index index = index := fun index => by
    rw [findNextBit, findNextBitInv, if_pos (Nat.le_refl _)]
  rw [findNextZeroArea, findNextZeroAreaOff]
  simp only [alignMask, Nat.add_zero, Nat.and_zero, Nat.sub_zero, hno]
  rw [if_neg (Nat.not_lt.mpr hz), if_neg (Nat.lt_irrefl _)]
  exact hz

theorem pageCount_small (hsize : size < 2 ^ 31) : pageCount size = (size + 4095) / 4096 := by
  rw [pageCount, pageSize]
  omega

/-- A request has something to find: it is empty, or there are free pages in a row. -/
def HasRoom (bt : BitmapT) (size n : Nat) : Prop :=
  size = 0 ∨ FirstFree bt.data (pageCount size) n

/-- What a request for the pages from `n` on does: they are in the area, were free, and are now given
away. -/
structure Granted (bt bt' : BitmapT) (cnt n : Nat) : Prop where
  inside : n + cnt ≤ kmapPageNum
  free : ∀ i, n ≤ i → i < n + cnt → bit bt.data i = false
  after : OfKmap bt'
  bits : ∀ i, bit bt'.data i = (decide (n ≤ i ∧ i < n + cnt) || bit bt.data i)

/-- A request gets the pages that it finds. -/
theorem granted (hbt : OfKmap bt) (hin : n + cnt ≤ kmapPageNum)
    (hfree : ∀ i, n ≤ i → i < n + cnt → bit bt.data i = false) :
    Granted bt { bt with data := setBits bt.data n cnt } cnt n := by
  refine ⟨hin, hfree, ⟨hbt.start, hbt.eleSize, hbt.bitNr⟩, fun i => ?_⟩
  rw [kmapPageNum] at hin
  dsimp only
  exact bit_setBits bt.data (by omega) i

/-- A request with room gets the first pages. An empty one gets an address in the area and no page. -/
theorem bitmapAllocRange_first (hbt : OfKmap bt) (hsize : size < 2 ^ 31) (hroom : HasRoom bt size n) :
    ∃ p bt', bitmapAllocRange bt size = (kmapPage p, bt') ∧ Granted bt bt' (pageCount size) p ∧
      (0 < size → p = n) := by
  have hcnt := pageCount_small hsize
  obtain ⟨p, hp, hin, hfree, hfirst⟩ : ∃ p,
      findNextZeroArea bt.data bt.bitNr 0 (pageCount size % 2 ^ 32) 0 = p ∧
        p + pageCount size ≤ kmapPageNum ∧
        (∀ i, p ≤ i → i < p + pageCount size → bit bt.data i = false) ∧ (0 < size → p = n) := by
    rw [hbt.bitNr, Nat.mod_eq_of_lt (by omega)]
    rcases Nat.eq_zero_or_pos size with hz | hpos
    · have hnone : pageCount size = 0 := by omega
      rw [hnone]
      exact ⟨_, rfl, findNextZeroArea_empty bt.data kmapPageNum, fun i h1 h2 => by omega,
        fun hpos => by omega⟩
    · have hff : FirstFree bt.data (pageCount size) n := hroom.resolve_left (by omega)
      refine ⟨n, findNextZeroArea_first (by omega) hff, hff.fits.inside, fun i h1 h2 => ?_, fun _ => rfl⟩
      exact Bool.eq_false_iff.mpr (hff.fits.clear i h1 h2)
  have hnum : kmapPageNum = 65536 := rfl
  have haddr : toUInt64 ((bt.start : Int) + (p : Int) * bt.eleSize) = kmapPage p := by
    rw [hbt.start, hbt.eleSize, kmapPage, kmapVirtStart, pageSize, toUInt64]
    omega
  refine ⟨p, { bt with data := setBits bt.data p (pageCount size) }, ?_, granted hbt hin hfree, hfirst⟩
  rw [bitmapAllocRange]
  simp only [hp, haddr, Prod.mk.injEq, true_and]
  rw [toInt32_eq (by omega) (by omega), toInt32_eq (by omega) (by omega)]

/-- A request without room is answered like any other, with an address past the area. -/
theorem bitmapAllocRange_none (hbt : OfKmap bt) (hpos : 0 < size) (hsize : size < 2 ^ 31)
    (hno : ∀ j, ¬ Fits (fun i => bit bt.data i = true) kmapPageNum (pageCount size) 1 0 j) :
    kmapVirtEnd < (bitmapAllocRange bt size).1 := by
  have hcnt := pageCount_small hsize
  obtain ⟨p, hp, hpast, hle⟩ : ∃ p, findNextZeroArea bt.data bt.bitNr 0 (pageCount size % 2 ^ 32) 0 = p ∧
      kmapPageNum < p ∧ p ≤ kmapPageNum + pageCount size := by
    rw [hbt.bitNr, Nat.mod_eq_of_lt (by omega)]
    refine ⟨_, rfl, ?_, findNextZeroAreaOff_le bt.data kmapPageNum 0 (pageCount size) 0 0⟩
    rcases findNextZeroAreaOff_spec bt.data kmapPageNum 0 0 0 (show 0 < pageCount size by omega) with
      hff | ⟨hlt, -⟩
    · exact absurd hff.fits (hno _)
    · exact hlt
  have hnum : kmapPageNum = 65536 := rfl
  have haddr : toUInt64 ((bt.start : Int) + (p : Int) * bt.eleSize) = kmapPage p := by
    rw [hbt.start, hbt.eleSize, kmapPage, kmapVirtStart, pageSize, toUInt64]
    omega
  rw [bitmapAllocRange]
  simp only [hp, haddr]
  rw [kmapPage, kmapVirtStart, kmapVirtEnd, pageSize]
  omega

end HyperCore.KmapArea
