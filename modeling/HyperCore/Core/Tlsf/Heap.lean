import HyperCore.Lib.ByteMem
import HyperCore.Lib.MachineInt
import HyperCore.Lib.Segregated

/-!
# `tlsf.c`: the allocator

The heap is byte memory, in which a block header is four words at the block's address, and the
bitmaps and list heads of `control_t`. Its `block_null` stays in memory, at the address `null`:
the lists end there, and its links are written like those of a block.

A failed `tlsf_assert`, and an access outside `sl_bitmap` or `blocks`, is `none`. `NULL` is `0`.
-/

namespace HyperCore.Tlsf

open ByteMem MachineInt

abbrev SizeT := BitVec 64

/-! ## Constants -/

def slIndexCountLog2 : Nat := 5
def alignSizeLog2 : Nat := 3
def alignSize : Nat := 1 <<< alignSizeLog2
def flIndexMax : Nat := 32
def slIndexCount : Nat := 1 <<< slIndexCountLog2
def flIndexShift : Nat := slIndexCountLog2 + alignSizeLog2
def flIndexCount : Nat := flIndexMax - flIndexShift + 1
def smallBlockSize : Nat := 1 <<< flIndexShift

/-- `sizeof(block_header_t)` -/
def sizeofBlockHeader : Nat := 32

def blockHeaderFreeBit : SizeT := 1#64 <<< 0
def blockHeaderPrevFreeBit : SizeT := 1#64 <<< 1
def blockHeaderOverhead : Nat := 8
def blockStartOffset : Nat := 8 + 8
def blockSizeMin : Nat := sizeofBlockHeader - 8
def blockSizeMax : Nat := 1 <<< flIndexMax

/-! ## Words -/

def tlsfAssert (p : Prop) [Decidable p] : Option Unit := if p then some () else none

/-- `__builtin_clz`, of a word that is not zero -/
def builtinClz (word : Nat) : Nat := 31 - Nat.log2 word

/-- `tlsf_ffs` -/
def tlsfFfs (word : BitVec 32) : Int :=
  match (List.range 32).find? word.getLsbD with
  | some i => i
  | none => -1

/-- `tlsf_fls` -/
def tlsfFls (word : Nat) : Int :=
  let bit : Int := if word ≠ 0 then 32 - builtinClz word else 0
  bit - 1

/-- `tlsf_fls_sizet` -/
def tlsfFlsSizet (size : Nat) : Int :=
  let high := size >>> 32
  if high ≠ 0 then 32 + tlsfFls high else tlsfFls (size % 2 ^ 32)

/-- `align_up` -/
def alignUp (x align : SizeT) : Option SizeT := do
  tlsfAssert (align &&& (align - 1) = 0)
  pure ((x + (align - 1)) &&& ~~~(align - 1))

/-- `align_down` -/
def alignDown (x align : SizeT) : Option SizeT := do
  tlsfAssert (align &&& (align - 1) = 0)
  pure (x - (x &&& (align - 1)))

/-- `align_ptr` -/
def alignPtr (ptr : Nat) (align : SizeT) : Option Nat := do
  let aligned := (BitVec.ofNat 64 ptr + (align - 1)) &&& ~~~(align - 1)
  tlsfAssert (align &&& (align - 1) = 0)
  pure aligned.toNat

/-- `adjust_request_size` -/
def adjustRequestSize (size align : SizeT) : Option Nat := do
  if size ≠ 0 then
    let aligned ← alignUp size align
    pure (if aligned.toNat < blockSizeMax then max aligned.toNat blockSizeMin else 0)
  else pure 0

/-- `mapping_insert` -/
def mappingInsert (size : Nat) : Nat × Nat :=
  if size < smallBlockSize then (0, size / (smallBlockSize / slIndexCount))
  else
    let fl := (tlsfFlsSizet size).toNat
    let sl := (size >>> (fl - slIndexCountLog2)) ^^^ (1 <<< slIndexCountLog2)
    (fl - (flIndexShift - 1), sl)

/-- `mapping_search` -/
def mappingSearch (size : Nat) : Nat × Nat :=
  if size ≥ smallBlockSize then
    mappingInsert (size + ((1 <<< ((tlsfFlsSizet size).toNat - slIndexCountLog2)) - 1))
  else mappingInsert size

/-! ## Blocks -/

/-- The memory, and `control_t` without its `block_null`. -/
structure Heap where
  bytes : Nat → BitVec 8
  flBitmap : BitVec 32
  slBitmap : Nat → BitVec 32
  blocks : Nat → Nat → Nat

/-- The eight bytes at an address, as a number. -/
def word (bytes : Nat → BitVec 8) (a : Nat) : Nat := littleEndian bytes a 8

namespace Heap

def prevPhysBlock (h : Heap) (block : Nat) : Nat := word h.bytes block
def size (h : Heap) (block : Nat) : SizeT := BitVec.ofNat 64 (word h.bytes (block + 8))
def nextFree (h : Heap) (block : Nat) : Nat := word h.bytes (block + 16)
def prevFree (h : Heap) (block : Nat) : Nat := word h.bytes (block + 24)

def store (h : Heap) (a v : Nat) : Heap := { h with bytes := put h.bytes a v 8 }

def setPrevPhysBlock (h : Heap) (block v : Nat) : Heap := h.store block v
def setSize (h : Heap) (block : Nat) (v : SizeT) : Heap := h.store (block + 8) v.toNat
def setNextFree (h : Heap) (block v : Nat) : Heap := h.store (block + 16) v
def setPrevFree (h : Heap) (block v : Nat) : Heap := h.store (block + 24) v

def setHead (h : Heap) (fl sl block : Nat) : Heap :=
  { h with blocks := Function.update h.blocks fl (Function.update (h.blocks fl) sl block) }

end Heap

/-- `block_size` -/
def blockSize (h : Heap) (block : Nat) : Nat :=
  (h.size block &&& ~~~(blockHeaderFreeBit ||| blockHeaderPrevFreeBit)).toNat

/-- `block_set_size` -/
def blockSetSize (h : Heap) (block size : Nat) : Heap :=
  let oldsize := h.size block
  h.setSize block
    (BitVec.ofNat 64 size ||| (oldsize &&& (blockHeaderFreeBit ||| blockHeaderPrevFreeBit)))

/-- `block_is_last` -/
def blockIsLast (h : Heap) (block : Nat) : Bool := blockSize h block == 0

/-- `block_is_free` -/
def blockIsFree (h : Heap) (block : Nat) : Bool := (h.size block &&& blockHeaderFreeBit) != 0

/-- `block_set_free` -/
def blockSetFree (h : Heap) (block : Nat) : Heap :=
  h.setSize block (h.size block ||| blockHeaderFreeBit)

/-- `block_set_used` -/
def blockSetUsed (h : Heap) (block : Nat) : Heap :=
  h.setSize block (h.size block &&& ~~~blockHeaderFreeBit)

/-- `block_is_prev_free` -/
def blockIsPrevFree (h : Heap) (block : Nat) : Bool :=
  (h.size block &&& blockHeaderPrevFreeBit) != 0

/-- `block_set_prev_free` -/
def blockSetPrevFree (h : Heap) (block : Nat) : Heap :=
  h.setSize block (h.size block ||| blockHeaderPrevFreeBit)

/-- `block_set_prev_used` -/
def blockSetPrevUsed (h : Heap) (block : Nat) : Heap :=
  h.setSize block (h.size block &&& ~~~blockHeaderPrevFreeBit)

/-- `block_from_ptr` -/
def blockFromPtr (ptr : Nat) : Nat := ptr - blockStartOffset

/-- `block_to_ptr` -/
def blockToPtr (block : Nat) : Nat := block + blockStartOffset

/-- `offset_to_block`, with the size as the signed offset that it may be -/
def offsetToBlock (ptr : Nat) (size : Int) : Nat := toUInt64 (ptr + size)

/-- `block_prev` -/
def blockPrev (h : Heap) (block : Nat) : Option Nat := do
  tlsfAssert (blockIsPrevFree h block)
  pure (h.prevPhysBlock block)

/-- `block_next` -/
def blockNext (h : Heap) (block : Nat) : Option Nat := do
  let next := offsetToBlock (blockToPtr block) ((blockSize h block : Int) - blockHeaderOverhead)
  tlsfAssert (¬ blockIsLast h block)
  pure next

/-- `block_link_next` -/
def blockLinkNext (h : Heap) (block : Nat) : Option (Heap × Nat) := do
  let next ← blockNext h block
  pure (h.setPrevPhysBlock next block, next)

/-- `block_mark_as_free` -/
def blockMarkAsFree (h : Heap) (block : Nat) : Option Heap := do
  let (h, next) ← blockLinkNext h block
  let h := blockSetPrevFree h next
  pure (blockSetFree h block)

/-- `block_mark_as_used` -/
def blockMarkAsUsed (h : Heap) (block : Nat) : Option Heap := do
  let next ← blockNext h block
  let h := blockSetPrevUsed h next
  pure (blockSetUsed h block)

/-! ## Free lists -/

/-- `~0U << n` -/
def onesFrom (n : Nat) : BitVec 32 := BitVec.allOnes 32 <<< n

/-- `search_suitable_block`: the block and the indices it was found under -/
def searchSuitableBlock (h : Heap) (fl sl : Nat) : Option (Nat × Nat × Nat) := do
  tlsfAssert (fl < flIndexCount)
  let slMap := h.slBitmap fl &&& onesFrom sl
  if slMap ≠ 0 then
    let sl := (tlsfFfs slMap).toNat
    pure (h.blocks fl sl, fl, sl)
  else
    let flMap := h.flBitmap &&& onesFrom (fl + 1)
    if flMap = 0 then pure (0, fl, sl)
    else
      let fl := (tlsfFfs flMap).toNat
      tlsfAssert (fl < flIndexCount)
      let slMap := h.slBitmap fl
      tlsfAssert (slMap ≠ 0)
      let sl := (tlsfFfs slMap).toNat
      pure (h.blocks fl sl, fl, sl)

/-- The end of `remove_free_block`: a list that became empty is taken out of the bitmaps. -/
def clearBits (h : Heap) (fl sl : Nat) : Heap :=
  let slMap := h.slBitmap fl &&& ~~~(1#32 <<< sl)
  { h with
    slBitmap := Function.update h.slBitmap fl slMap
    flBitmap := if slMap = 0 then h.flBitmap &&& ~~~(1#32 <<< fl) else h.flBitmap }

/-- `remove_free_block` -/
def removeFreeBlock (null : Nat) (h : Heap) (block fl sl : Nat) : Option Heap := do
  let prev := h.prevFree block
  let next := h.nextFree block
  tlsfAssert (prev ≠ 0)
  tlsfAssert (next ≠ 0)
  let h := h.setPrevFree next prev
  let h := h.setNextFree prev next
  tlsfAssert (fl < flIndexCount ∧ sl < slIndexCount)
  if h.blocks fl sl = block then
    let h := h.setHead fl sl next
    pure (if next = null then clearBits h fl sl else h)
  else pure h

/-- `insert_free_block` -/
def insertFreeBlock (null : Nat) (h : Heap) (block fl sl : Nat) : Option Heap := do
  tlsfAssert (fl < flIndexCount ∧ sl < slIndexCount)
  let current := h.blocks fl sl
  tlsfAssert (current ≠ 0)
  tlsfAssert (block ≠ 0)
  let h := h.setNextFree block current
  let h := h.setPrevFree block null
  let h := h.setPrevFree current block
  let aligned ← alignPtr (blockToPtr block) (BitVec.ofNat 64 alignSize)
  tlsfAssert (blockToPtr block = aligned)
  let h := h.setHead fl sl block
  pure { h with
    flBitmap := h.flBitmap ||| 1#32 <<< fl
    slBitmap := Function.update h.slBitmap fl (h.slBitmap fl ||| 1#32 <<< sl) }

/-- `block_remove` -/
def blockRemove (null : Nat) (h : Heap) (block : Nat) : Option Heap :=
  let (fl, sl) := mappingInsert (blockSize h block)
  removeFreeBlock null h block fl sl

/-- `block_insert` -/
def blockInsert (null : Nat) (h : Heap) (block : Nat) : Option Heap :=
  let (fl, sl) := mappingInsert (blockSize h block)
  insertFreeBlock null h block fl sl

/-! ## Splitting and merging -/

/-- `block_can_split` -/
def blockCanSplit (h : Heap) (block size : Nat) : Bool :=
  blockSize h block ≥ (sizeofBlockHeader + size) % 2 ^ 64

/-- `block_split` -/
def blockSplit (h : Heap) (block size : Nat) : Option (Heap × Nat) := do
  let remaining := offsetToBlock (blockToPtr block) ((size : Int) - blockHeaderOverhead)
  let remainSize := toUInt64 ((blockSize h block : Int) - (size + blockHeaderOverhead : Nat))
  let aligned ← alignPtr (blockToPtr remaining) (BitVec.ofNat 64 alignSize)
  tlsfAssert (blockToPtr remaining = aligned)
  tlsfAssert (blockSize h block = remainSize + size + blockHeaderOverhead)
  let h := blockSetSize h remaining remainSize
  tlsfAssert (blockSize h remaining ≥ blockSizeMin)
  let h := blockSetSize h block size
  let h ← blockMarkAsFree h remaining
  pure (h, remaining)

/-- `block_absorb` -/
def blockAbsorb (h : Heap) (prev block : Nat) : Option (Heap × Nat) := do
  tlsfAssert (¬ blockIsLast h prev)
  let h := h.setSize prev (h.size prev + BitVec.ofNat 64 (blockSize h block + blockHeaderOverhead))
  let (h, _) ← blockLinkNext h prev
  pure (h, prev)

/-- `block_merge_prev` -/
def blockMergePrev (null : Nat) (h : Heap) (block : Nat) : Option (Heap × Nat) :=
  if blockIsPrevFree h block then do
    let prev ← blockPrev h block
    tlsfAssert (prev ≠ 0)
    tlsfAssert (blockIsFree h prev)
    let h ← blockRemove null h prev
    blockAbsorb h prev block
  else some (h, block)

/-- `block_merge_next` -/
def blockMergeNext (null : Nat) (h : Heap) (block : Nat) : Option (Heap × Nat) := do
  let next ← blockNext h block
  tlsfAssert (next ≠ 0)
  if blockIsFree h next then
    tlsfAssert (¬ blockIsLast h block)
    let h ← blockRemove null h next
    blockAbsorb h block next
  else pure (h, block)

/-- `block_trim_free` -/
def blockTrimFree (null : Nat) (h : Heap) (block size : Nat) : Option Heap := do
  tlsfAssert (blockIsFree h block)
  if blockCanSplit h block size then
    let (h, remainingBlock) ← blockSplit h block size
    let (h, _) ← blockLinkNext h block
    let h := blockSetPrevFree h remainingBlock
    blockInsert null h remainingBlock
  else pure h

/-- `block_trim_used` -/
def blockTrimUsed (null : Nat) (h : Heap) (block size : Nat) : Option Heap := do
  tlsfAssert (¬ blockIsFree h block)
  if blockCanSplit h block size then
    let (h, remainingBlock) ← blockSplit h block size
    let h := blockSetPrevUsed h remainingBlock
    let (h, remainingBlock) ← blockMergeNext null h remainingBlock
    blockInsert null h remainingBlock
  else pure h

/-- `block_trim_free_leading` -/
def blockTrimFreeLeading (null : Nat) (h : Heap) (block size : Nat) : Option (Heap × Nat) := do
  if blockCanSplit h block size then
    let (h, remainingBlock) ← blockSplit h block (size - blockHeaderOverhead)
    let h := blockSetPrevFree h remainingBlock
    let (h, _) ← blockLinkNext h block
    let h ← blockInsert null h block
    pure (h, remainingBlock)
  else pure (h, block)

/-- `block_locate_free` -/
def blockLocateFree (null : Nat) (h : Heap) (size : Nat) : Option (Heap × Nat) := do
  if size = 0 then pure (h, 0)
  else
    let (fl, sl) := mappingSearch size
    if fl < flIndexCount then
      let (block, fl, sl) ← searchSuitableBlock h fl sl
      if block ≠ 0 then
        tlsfAssert (blockSize h block ≥ size)
        let h ← removeFreeBlock null h block fl sl
        pure (h, block)
      else pure (h, 0)
    else pure (h, 0)

/-- `block_prepare_used` -/
def blockPrepareUsed (null : Nat) (h : Heap) (block size : Nat) : Option (Heap × Nat) := do
  if block ≠ 0 then
    tlsfAssert (size ≠ 0)
    let h ← blockTrimFree null h block size
    let h ← blockMarkAsUsed h block
    pure (h, blockToPtr block)
  else pure (h, 0)

/-! ## The interface -/

/-- `control_construct`, on memory that holds anything -/
def controlConstruct (null : Nat) (bytes : Nat → BitVec 8) : Heap :=
  let h : Heap := ⟨bytes, 0, fun _ => 0, fun _ _ => null⟩
  (h.setNextFree null null).setPrevFree null null

/-- `tlsf_add_pool` -/
def tlsfAddPool (null : Nat) (h : Heap) (mem : Nat) (bytes : SizeT) : Option (Heap × Nat) := do
  let poolOverhead := 2 * blockHeaderOverhead
  let poolBytes ← alignDown (bytes - BitVec.ofNat 64 poolOverhead) (BitVec.ofNat 64 alignSize)
  if mem % alignSize ≠ 0 then pure (h, 0)
  else if poolBytes.toNat < blockSizeMin ∨ poolBytes.toNat > blockSizeMax then pure (h, 0)
  else
    let block := offsetToBlock mem (-(blockHeaderOverhead : Int))
    let h := blockSetSize h block poolBytes.toNat
    let h := blockSetFree h block
    let h := blockSetPrevUsed h block
    let h ← blockInsert null h block
    let (h, next) ← blockLinkNext h block
    let h := blockSetSize h next 0
    let h := blockSetUsed h next
    let h := blockSetPrevFree h next
    pure (h, mem)

/-- `tlsf_malloc` -/
def tlsfMalloc (null : Nat) (h : Heap) (size : SizeT) : Option (Heap × Nat) := do
  let adjust ← adjustRequestSize size (BitVec.ofNat 64 alignSize)
  let (h, block) ← blockLocateFree null h adjust
  blockPrepareUsed null h block adjust

/-- `tlsf_free` -/
def tlsfFree (null : Nat) (h : Heap) (ptr : Nat) : Option Heap := do
  if ptr ≠ 0 then
    let block := blockFromPtr ptr
    tlsfAssert (¬ blockIsFree h block)
    let h ← blockMarkAsFree h block
    let (h, block) ← blockMergePrev null h block
    let (h, block) ← blockMergeNext null h block
    blockInsert null h block
  else pure h

/-- `memcpy` between ranges that do not overlap -/
def memcpy (bytes : Nat → BitVec 8) (dst src n : Nat) (y : Nat) : BitVec 8 :=
  if dst ≤ y ∧ y < dst + n then bytes (src + (y - dst)) else bytes y

/-- `if (adjust > cursize)` of `tlsf_realloc`: the block grows over its successor. -/
def expandToNext (null : Nat) (h : Heap) (block adjust cursize : Nat) : Option Heap := do
  if adjust > cursize then
    let (h, _) ← blockMergeNext null h block
    blockMarkAsUsed h block
  else pure h

/-- `tlsf_realloc` -/
def tlsfRealloc (null : Nat) (h : Heap) (ptr : Nat) (size : SizeT) : Option (Heap × Nat) := do
  if ptr ≠ 0 ∧ size = 0 then
    let h ← tlsfFree null h ptr
    pure (h, 0)
  else if ptr = 0 then tlsfMalloc null h size
  else
    let block := blockFromPtr ptr
    let next ← blockNext h block
    let cursize := blockSize h block
    let combined := (cursize + blockSize h next + blockHeaderOverhead) % 2 ^ 64
    let adjust ← adjustRequestSize size (BitVec.ofNat 64 alignSize)
    tlsfAssert (¬ blockIsFree h block)
    if adjust > cursize ∧ (¬ blockIsFree h next ∨ adjust > combined) then
      let (h, p) ← tlsfMalloc null h size
      if p ≠ 0 then
        let minsize := min cursize size.toNat
        let h ← tlsfFree null { h with bytes := memcpy h.bytes p ptr minsize } ptr
        pure (h, p)
      else pure (h, 0)
    else
      let h ← expandToNext null h block adjust cursize
      let h ← blockTrimUsed null h block adjust
      pure (h, ptr)

/-- `if (gap && gap < gap_minimum)` of `tlsf_memalign`: the next boundary that leaves a gap of a
block. -/
def widenGap (ptr aligned gap gapMinimum : Nat) (align : SizeT) : Option (Nat × Nat) := do
  if gap ≠ 0 ∧ gap < gapMinimum then
    let gapRemain := gapMinimum - gap
    let offset := max gapRemain align.toNat
    let nextAligned := aligned + offset
    let aligned ← alignPtr nextAligned align
    pure (aligned, toUInt64 ((aligned : Int) - ptr))
  else pure (aligned, gap)

/-- `if (gap)` of `tlsf_memalign` -/
def trimGap (null : Nat) (h : Heap) (block gap gapMinimum : Nat) : Option (Heap × Nat) := do
  if gap ≠ 0 then
    tlsfAssert (gap ≥ gapMinimum)
    blockTrimFreeLeading null h block gap
  else pure (h, block)

/-- `tlsf_memalign` -/
def tlsfMemalign (null : Nat) (h : Heap) (align size : SizeT) : Option (Heap × Nat) := do
  let adjust ← adjustRequestSize size (BitVec.ofNat 64 alignSize)
  let gapMinimum := sizeofBlockHeader
  let sizeWithGap ←
    adjustRequestSize (BitVec.ofNat 64 adjust + align + BitVec.ofNat 64 gapMinimum) align
  let alignedSize := if adjust ≠ 0 ∧ align.toNat > alignSize then sizeWithGap else adjust
  let (h, block) ← blockLocateFree null h alignedSize
  if block ≠ 0 then
    let ptr := blockToPtr block
    let aligned ← alignPtr ptr align
    let gap := toUInt64 ((aligned : Int) - ptr)
    let (_, gap) ← widenGap ptr aligned gap gapMinimum align
    let (h, block) ← trimGap null h block gap gapMinimum
    blockPrepareUsed null h block adjust
  else blockPrepareUsed null h block adjust

end HyperCore.Tlsf
