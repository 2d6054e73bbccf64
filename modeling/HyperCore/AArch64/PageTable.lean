import HyperCore.AArch64.Stage2Unmap
import HyperCore.Core.TableView

/-!
# `page_table.c`: the hypervisor's own tables

The stage-1 entries of `make_stage1_entry`, and the mapper of one page. Entries carry what the
mapper does not read: the attributes of the call, also in the entries that link tables, and the
software count `avail`, which is kept in the first entry of each table. Seen through `hostView`, which
gives every entry one attribute and no count, the code is the mapper `hostMapper`
(`ptwMap4kPage_mirrors`). A view can leave the attributes of one entry as they are.

The walk of the hardware (`hostWalk`) is stated from the architecture. Attributes that a link
imposes on what is below it are not modelled: `make_stage1_entry` leaves them clear.
-/

namespace HyperCore.AArch64

open RadixTable Bitmap PageAlloc ArchPage TableMap

/-! ## Stage-1 entries -/

/-- The fields of `lpae_pt_t` that are ever set. -/
structure Pt where
  valid : Nat := 0
  table : Nat := 0
  ai : Nat := 0
  ns : Nat := 0
  up : Nat := 0
  sh : Nat := 0
  af : Nat := 0
  ng : Nat := 0
  base : Nat := 0
  avail : Nat := 0

/-- The word of an entry: each field cut to its width and put at its place. -/
def Pt.bits (e : Pt) : Word :=
  BitVec.ofNat 64 (e.valid % 2 + 2 * (e.table % 2) + 2 ^ 2 * (e.ai % 2 ^ 3) + 2 ^ 5 * (e.ns % 2) +
    2 ^ 6 * (e.up % 2) + 2 ^ 8 * (e.sh % 2 ^ 2) + 2 ^ 10 * (e.af % 2) + 2 ^ 11 * (e.ng % 2) +
    2 ^ 12 * (e.base % 2 ^ 36) + 2 ^ 55 * (e.avail % 2 ^ 4))

/-- `LPAE_SH_OUTER` for `MT_DEVICE_nGnRnE`, `MT_NORMAL_NC` and `MT_DEVICE_nGnRE`, else
`LPAE_SH_INNER`. -/
def stage1Shareability : Nat → Nat
  | 0 | 1 | 4 => 0x2
  | _ => 0x3

/-- The fields that `make_stage1_entry` sets before the address. -/
def stage1Fields (attrIndex : Nat) : Pt where
  valid := 1
  table := 1
  ai := attrIndex
  ns := 1
  up := 1
  af := 1
  ng := 1
  sh := stage1Shareability attrIndex

/-- `make_stage1_entry` -/
def makeStage1Entry (pa attrIndex : Nat) : Word :=
  Pt.bits { stage1Fields attrIndex with base := pa / 2 ^ 12 }

/-- `pt.avail` -/
def avail (w : Word) : Nat := w.toNat / 2 ^ 55 % 2 ^ 4

/-- `pt.avail = n` -/
def setAvail (w : Word) (n : Nat) : Word :=
  BitVec.ofNat 64 (w.toNat % 2 ^ 55 + 2 ^ 55 * (n % 2 ^ 4) + 2 ^ 59 * (w.toNat / 2 ^ 59))

/-- What a stage-1 leaf says about its page, as the MMU reads it. -/
structure S1Attr where
  ai : Nat
  ns : Bool
  up : Bool
  ro : Bool
  sh : Nat
  af : Bool
  ng : Bool
  contig : Bool
  pxn : Bool
  xn : Bool
  deriving DecidableEq, Repr

/-- The attributes of a leaf entry. -/
def s1AttrOf (w : Word) : S1Attr where
  ai := w.toNat / 2 ^ 2 % 2 ^ 3
  ns := w.toNat / 2 ^ 5 % 2 == 1
  up := w.toNat / 2 ^ 6 % 2 == 1
  ro := w.toNat / 2 ^ 7 % 2 == 1
  sh := w.toNat / 2 ^ 8 % 2 ^ 2
  af := w.toNat / 2 ^ 10 % 2 == 1
  ng := w.toNat / 2 ^ 11 % 2 == 1
  contig := w.toNat / 2 ^ 52 % 2 == 1
  pxn := w.toNat / 2 ^ 53 % 2 == 1
  xn := w.toNat / 2 ^ 54 % 2 == 1

/-! ## The code -/

/-- `cur_tbl->pt.avail++` -/
def bumpAvail (L : Layout) (curTbl : Nat) : HostM Unit := do
  let e ← load L.hostTranslate curTbl
  store L.hostTranslate curTbl (setAvail e (avail e + 1))

/-- `next_pte->pt.avail = 1` -/
def markAvail (L : Layout) (nextPte : Nat) : HostM Unit := do
  let e ← load L.hostTranslate nextPte
  store L.hostTranslate nextPte (setAvail e 1)

/-- The part of `__ptw_map_4k_page` that puts a new table behind `next_pte`. -/
def ptwLinkTable (L : Layout) (nextPte attr : Nat) : HostM Unit := do
  let fn ← takePage
  if fn < 0 then fatal
  unless pageVir fn = 0 do
    clearPage L.hostTranslate (pageVir fn)
  let link := makeStage1Entry (L.pagePhy fn) attr
  storeLink L.hostTranslate nextPte link (tableBase link)

/-- Entry `i` of `cur_tbl` above the last level, after linking a table if there is none. -/
def ptwNextPte (L : Layout) (curTbl i attr : Nat) : HostM Word := do
  let e ← load L.hostTranslate (curTbl + 8 * i)
  unless pteIsValid e do
    ptwLinkTable L (curTbl + 8 * i) attr
    bumpAvail L curTbl
  load L.hostTranslate (curTbl + 8 * i)

/-- `__ptw_map_4k_page` at level `3 - n`. -/
def ptwMap4kPage (L : Layout) (virAddr phyAddr attr : Nat) : Nat → Nat → HostM Unit
  | 0, curTbl =>
    if curTbl = 0 then pure ()
    else do
      let e ← load L.hostTranslate (curTbl + 8 * pteOffset virAddr 3)
      if validBit e || baseField e != 0 then fatal
      storeLeaf L.hostTranslate (curTbl + 8 * pteOffset virAddr 3) (makeStage1Entry phyAddr attr)
      bumpAvail L curTbl
      markAvail L (curTbl + 8 * pteOffset virAddr 3)
  | n + 1, curTbl =>
    if curTbl = 0 then pure ()
    else do
      let e ← ptwNextPte L curTbl (pteOffset virAddr (2 - n)) attr
      ptwMap4kPage L virAddr phyAddr attr n (L.phyToVir (tableBase e))

/-- `__ptw_unmap_4k_page` at level `3 - n`. -/
def ptwUnmap4kPage (L : Layout) (virAddr n preTbl : Nat) : HostM Unit := unmapPage L virAddr n preTbl

/-- `host_map_one_page`, on the root `boot_pgtable`. -/
def hostMapOnePage (L : Layout) (root vir phy attr : Nat) : HostM Unit :=
  ptwMap4kPage L vir phy attr 3 root

/-- `host_unmap_one_page` -/
def hostUnmapOnePage (L : Layout) (root vir : Nat) : HostM Unit := ptwUnmap4kPage L vir 3 root

/-! ## The hardware's walk -/

/-- The walk from `table` with `n` levels below it. A block at level 1 or 2 translates a larger
range; at level 0 it is reserved. -/
def hostWalkFrom (m : Nat → Word) (va : Nat) : Nat → Nat → Option (Nat × S1Attr)
  | table, 0 =>
    let d := m (table + 8 * mmuIndex va 3)
    if validBit d && tableBit d then some (baseField d * 4096 + va % 4096, s1AttrOf d) else none
  | table, n + 1 =>
    let d := m (table + 8 * mmuIndex va (2 - n))
    if !validBit d then none
    else if tableBit d then hostWalkFrom m va (baseField d * 4096) n
    else if n = 2 then none
    else
      let size := 2 ^ (12 + 9 * (n + 1))
      some (baseField d * 4096 / size * size + va % size, s1AttrOf d)

/-- The hardware's walk of the low 48 bits of `va`. -/
def hostWalk (m : Nat → Word) (root va : Nat) : Option (Nat × S1Attr) := hostWalkFrom m va root 3

/-! ## Reading the fields back -/

theorem Pt.toNat_bits (e : Pt) : e.bits.toNat =
    e.valid % 2 + 2 * (e.table % 2) + 2 ^ 2 * (e.ai % 2 ^ 3) + 2 ^ 5 * (e.ns % 2) +
      2 ^ 6 * (e.up % 2) + 2 ^ 8 * (e.sh % 2 ^ 2) + 2 ^ 10 * (e.af % 2) + 2 ^ 11 * (e.ng % 2) +
      2 ^ 12 * (e.base % 2 ^ 36) + 2 ^ 55 * (e.avail % 2 ^ 4) := by
  rw [Pt.bits, BitVec.toNat_ofNat]
  omega

theorem Pt.validBit_bits (e : Pt) : validBit e.bits = (e.valid % 2 == 1) := by
  rw [validBit, e.toNat_bits]
  congr 1
  omega

theorem Pt.tableBit_bits (e : Pt) : tableBit e.bits = (e.table % 2 == 1) := by
  rw [tableBit, e.toNat_bits]
  congr 1
  omega

theorem Pt.baseField_bits (e : Pt) : baseField e.bits = e.base % 2 ^ 36 := by
  rw [baseField, e.toNat_bits]
  omega

theorem toNat_setAvail (w : Word) (n : Nat) :
    (setAvail w n).toNat = w.toNat % 2 ^ 55 + 2 ^ 55 * (n % 2 ^ 4) + 2 ^ 59 * (w.toNat / 2 ^ 59) := by
  have hw := w.isLt
  rw [setAvail, BitVec.toNat_ofNat]
  omega

section

variable (w : Word) (n m : Nat)

theorem validBit_setAvail : validBit (setAvail w n) = validBit w := by
  rw [validBit, validBit, toNat_setAvail]
  congr 1
  omega

theorem baseField_setAvail : baseField (setAvail w n) = baseField w := by
  rw [baseField, baseField, toNat_setAvail]
  omega

theorem tableBit_setAvail : tableBit (setAvail w n) = tableBit w := by
  rw [tableBit, tableBit, toNat_setAvail]
  congr 1
  omega

theorem setAvail_setAvail : setAvail (setAvail w n) m = setAvail w m := by
  refine BitVec.eq_of_toNat_eq ?_
  rw [toNat_setAvail, toNat_setAvail, toNat_setAvail]
  omega

/-- The attributes do not depend on the count. -/
theorem s1AttrOf_setAvail : s1AttrOf (setAvail w n) = s1AttrOf w := by
  rw [s1AttrOf, s1AttrOf, toNat_setAvail]
  simp only [S1Attr.mk.injEq]
  refine ⟨by omega, ?_, ?_, ?_, by omega, ?_, ?_, ?_, ?_, ?_⟩ <;> (congr 1; omega)

end

section

variable (pa attr : Nat)

theorem validBit_make1 : validBit (makeStage1Entry pa attr) = true := Pt.validBit_bits _

theorem tableBit_make1 : tableBit (makeStage1Entry pa attr) = true := Pt.tableBit_bits _

theorem baseField_make1 : baseField (makeStage1Entry pa attr) = pa / 2 ^ 12 % 2 ^ 36 :=
  Pt.baseField_bits _

theorem setAvail_make1 : setAvail (makeStage1Entry pa attr) 0 = makeStage1Entry pa attr := by
  refine BitVec.eq_of_toNat_eq ?_
  rw [toNat_setAvail, makeStage1Entry, Pt.toNat_bits]
  simp only [stage1Fields]
  omega

end

/-- The address survives for page-aligned addresses below `2 ^ 48`. -/
theorem tableBase_make1 {pa : Nat} (attr : Nat) (ha : pa % 4096 = 0) (hlt : pa < 2 ^ 48) :
    tableBase (makeStage1Entry pa attr) = pa := by
  rw [tableBase, baseField_make1]
  omega

/-! ## The mapper -/

theorem host_entry_link {L : Layout} {p : Nat} (attr : Nat) (hp : p < 2 ^ 20) :
    pteIsValid (makeStage1Entry (L.physPage p) attr) = true ∧ false = false ∧
      tableBase (makeStage1Entry (L.physPage p) attr) = L.physPage p := by
  have hlt := L.physPage_lt hp
  have hpos := L.physPage_pos p
  have hbase := tableBase_make1 attr (L.physPage_mod p) (Nat.lt_trans hlt (by decide))
  refine ⟨?_, rfl, hbase⟩
  rw [pteIsValid, validBit_make1, Bool.true_and, bne_iff_ne]
  intro h0
  rw [tableBase, h0] at hbase
  omega

theorem host_high {L : Layout} (attr : Nat) {p : Nat} (h1 : 2 * 2 ^ 17 ≤ p) (h2 : p < 2 ^ 20) :
    L.hostTranslate (pageVir p) = none ∨ ∀ q, q < 2 ^ 20 →
      tableBase (makeStage1Entry (L.pagePhy p) attr) ≠ L.physPage q :=
  .inl (L.hostTranslate_pageVir_high (Nat.le_trans (by decide) h1) h2)

/-- The mapper of the hypervisor's tables, all of whose links have the attribute `attr`. -/
def hostMapper (L : Layout) (attr : Nat) : Mapper L where
  live := validBit
  valid := pteIsValid
  stop _ := false
  base := tableBase
  entry pa := makeStage1Entry pa attr
  tr := L.hostTranslate
  pageAddr := pageVir
  tableAddr := L.phyToVir
  half := 2 ^ 17
  half_le := s2_half_le
  live_zero := validBit_zero
  live_of_valid := validBit_of_pteIsValid
  entry_link := host_entry_link attr
  tr_page := L.hostTranslate_page
  tr_table := L.hostTranslate_slot
  tableAddr_ne := L.phyToVir_ne_zero
  high := host_high attr

theorem hostMapper_half (L : Layout) (attr : Nat) : (hostMapper L attr).half = 2 ^ 17 := rfl

/-- The index of `virAddr` at level `k`. -/
def hostIndex (virAddr k : Nat) : Fin 512 := pteOffset virAddr k

/-- The unmapper does not look at what links are made of. -/
theorem hostMapper_anyLive (L : Layout) (attr t n : Nat) :
    (s2Mapper L).anyLive t n = (hostMapper L attr).anyLive t n := by
  induction n with
  | zero => rfl
  | succ n ih =>
    rw [Mapper.anyLive, Mapper.anyLive, ih]
    rfl

theorem hostMapper_unmapAt (L : Layout) (attr : Nat) (idx : Nat → Fin 512) (n : Nat) :
    ∀ k t, (s2Mapper L).unmapAt idx n k t = (hostMapper L attr).unmapAt idx n k t := by
  induction n with
  | zero => exact fun _ _ => rfl
  | succ n ih =>
    intro k t
    simp only [Mapper.unmapAt, ih, hostMapper_anyLive L attr]
    rfl

theorem hostUnmapOnePage_eq (L : Layout) (attr root vir : Nat) :
    hostUnmapOnePage L root vir = (hostMapper L attr).unmapAt (hostIndex vir) 3 0 root := by
  have hindex : s2Index 0 vir = hostIndex vir := by
    funext k
    rw [s2Index, hostIndex, Nat.zero_add]
  rw [hostUnmapOnePage, ptwUnmap4kPage, unmapPage_eq L vir (Nat.zero_add 3) 3 (Nat.zero_add 3), hindex,
    hostMapper_unmapAt L attr]

/-! ## Entries as the mapper sees them -/

/-- The entry with the attribute `attr`, if it is valid, and without count. -/
def withAttr (attr : Nat) (w : Word) : Word :=
  Pt.bits { (if validBit w then stage1Fields attr else {}) with
    table := w.toNat / 2, base := baseField w }

/-- Every entry with the attribute `attr` and no count; that at `exact` keeps its attributes. -/
def hostView (attr : Nat) (exact : Option Nat) (a : Nat) (w : Word) : Word :=
  if exact = some a then setAvail w 0 else withAttr attr w

section

variable (attr : Nat) (exact : Option Nat) (a : Nat) (w : Word)

theorem validBit_withAttr : validBit (withAttr attr w) = validBit w := by
  rw [withAttr, Pt.validBit_bits]
  split
  · next hv => exact hv.symm
  · next hv => exact (Bool.eq_false_iff.mpr hv).symm

theorem tableBit_withAttr : tableBit (withAttr attr w) = tableBit w := by
  rw [withAttr, Pt.tableBit_bits, tableBit]

theorem baseField_withAttr : baseField (withAttr attr w) = baseField w := by
  rw [withAttr, Pt.baseField_bits]
  exact Nat.mod_eq_of_lt (Nat.mod_lt _ (by decide))

theorem withAttr_setAvail (n : Nat) : withAttr attr (setAvail w n) = withAttr attr w := by
  have htable : (setAvail w n).toNat / 2 % 2 = w.toNat / 2 % 2 := by
    rw [toNat_setAvail]
    omega
  rw [withAttr, withAttr, validBit_setAvail, baseField_setAvail, Pt.bits, Pt.bits]
  simp only [htable]

theorem withAttr_make1 (pa call : Nat) :
    withAttr attr (makeStage1Entry pa call) = makeStage1Entry pa attr := by
  have htable : (makeStage1Entry pa call).toNat / 2 % 2 = 1 := by
    have hbit := tableBit_make1 pa call
    rwa [tableBit, beq_iff_eq] at hbit
  rw [withAttr, if_pos (validBit_make1 pa call), baseField_make1, Pt.bits]
  simp only [htable, Nat.mod_mod, stage1Fields]
  rfl

theorem validBit_hostView : validBit (hostView attr exact a w) = validBit w := by
  rw [hostView]
  split
  · exact validBit_setAvail w 0
  · exact validBit_withAttr attr w

theorem tableBit_hostView : tableBit (hostView attr exact a w) = tableBit w := by
  rw [hostView]
  split
  · exact tableBit_setAvail w 0
  · exact tableBit_withAttr attr w

theorem baseField_hostView : baseField (hostView attr exact a w) = baseField w := by
  rw [hostView]
  split
  · exact baseField_setAvail w 0
  · exact baseField_withAttr attr w

theorem tableBase_hostView : tableBase (hostView attr exact a w) = tableBase w := by
  rw [tableBase, baseField_hostView, tableBase]

theorem pteIsValid_hostView : pteIsValid (hostView attr exact a w) = pteIsValid w := by
  rw [pteIsValid, validBit_hostView, baseField_hostView, pteIsValid]

/-- A view shows no count. -/
theorem hostView_setAvail (n : Nat) :
    hostView attr exact a (setAvail w n) = hostView attr exact a w := by
  rw [hostView, hostView]
  split
  · exact setAvail_setAvail w n 0
  · exact withAttr_setAvail attr w n

theorem hostView_zero : hostView attr exact a 0 = 0 := by
  rw [hostView]
  split
  · decide
  · rw [withAttr, validBit_zero]
    simp only [Bool.false_eq_true, if_false]
    decide

/-- The entry of a call, where no entry is exact or the call has the view's attribute. -/
theorem hostView_make1 {call : Nat} (hcall : exact = none ∨ call = attr) (pa : Nat) :
    hostView attr exact a (makeStage1Entry pa call) = makeStage1Entry pa attr := by
  rw [hostView]
  split
  · next he =>
    rcases hcall with hnone | rfl
    · rw [hnone] at he
      cases he
    · exact setAvail_make1 pa call
  · exact withAttr_make1 attr pa call

end

theorem hostView_keeps (L : Layout) (attr : Nat) (exact : Option Nat) :
    (hostMapper L attr).Keeps (hostView attr exact) where
  live := validBit_hostView attr exact
  base := tableBase_hostView attr exact
  zero := hostView_zero attr exact

/-! ## The code as the mapper -/

theorem ptwLinkTable_eq (L : Layout) (nextPte attr : Nat) :
    ptwLinkTable L nextPte attr = (hostMapper L attr).linkTable nextPte := by
  funext h
  have hneg := allocOnePage_nonneg h.bitmap
  have htake : takePage h =
      .ok (allocOnePage h.bitmap).1 { h with bitmap := (allocOnePage h.bitmap).2 } := by
    rw [takePage]
  rw [ptwLinkTable, Mapper.linkTable, bind_ok htake, bind_ok htake]
  simp only [hneg, pageVir_ne_zero hneg, if_false, hostMapper]

/-- An aligned table whose entry is reached is reached itself. -/
theorem hostTranslate_table {L : Layout} {t a : Nat} (ht : t % 4096 = 0) (i : Fin 512)
    (ha : L.hostTranslate (t + 8 * i) = some a) : ∃ b, L.hostTranslate t = some b := by
  have hi := i.isLt
  have hoff := L.pagePhysOffset_mod
  simp only [Layout.hostTranslate] at ha ⊢
  split at ha
  · next hwin =>
    have hin : pageVirtOffset ≤ t ∧ t < pageVirtOffset + directMappingSize := by
      simp only [pageVirtOffset, directMappingSize] at hwin ⊢
      omega
    rw [if_pos hin]
    exact ⟨_, rfl⟩
  · split at ha
    · next hlow =>
      split
      · exact ⟨_, rfl⟩
      · rw [if_pos (by omega)]
        exact ⟨_, rfl⟩
    · cases ha

/-- The pointer to a table is page aligned, and not null for an address that is not. -/
theorem phyToVir_tableBase (L : Layout) {e : Word} (he : baseField e ≠ 0) :
    L.phyToVir (tableBase e) % 4096 = 0 ∧ L.phyToVir (tableBase e) ≠ 0 := by
  have hlt : baseField e < 2 ^ 36 := Nat.mod_lt _ (by decide)
  have hoff := L.pagePhysOffset_mod
  rw [Layout.phyToVir, tableBase]
  split
  · omega
  · simp only [MachineInt.toUInt64, pageVirtOffset]
    omega

section

variable {L : Layout} {attr call : Nat} {exact : Option Nat}

theorem ptwLinkTable_mirrors (hcall : exact = none ∨ call = attr) (nextPte : Nat) :
    Mirrors (hostView attr exact) (ptwLinkTable L nextPte call)
      ((hostMapper L attr).linkTable nextPte) := by
  rw [ptwLinkTable_eq]
  refine .bind .takePage fun fn => .bind (.clearPage (hostView_zero attr exact)) fun _ => ?_
  have hbase : tableBase (makeStage1Entry (L.pagePhy fn) call) =
      tableBase (makeStage1Entry (L.pagePhy fn) attr) := by
    rw [tableBase, tableBase, baseField_make1, baseField_make1]
  show Mirrors _ (storeLink _ _ _ (tableBase (makeStage1Entry (L.pagePhy fn) call))) _
  rw [hbase]
  exact .storeLink (fun a => hostView_make1 attr exact a hcall _) _

theorem setAvail_mirrors {f : Word → Nat} {va a : Nat} (htr : L.hostTranslate va = some a) :
    Mirrors (hostView attr exact)
      (do let e ← load L.hostTranslate va; store L.hostTranslate va (setAvail e (f e))) (pure ()) :=
  .rewrite htr fun w => hostView_setAvail attr exact a w (f w)

/-- One level of the descent. -/
theorem ptwNextPte_mirrors (hcall : exact = none ∨ call = attr) {t : Nat} (ht : t % 4096 = 0)
    (i : Fin 512) :
    Mirrors (hostView attr exact)
      ((fun e => L.phyToVir (tableBase e)) <$> ptwNextPte L t i call)
      ((hostMapper L attr).nextTable t i) := by
  have hreload : Mirrors (hostView attr exact)
      (load L.hostTranslate (t + 8 * i) >>= fun e => pure (L.phyToVir (tableBase e)))
      (load L.hostTranslate (t + 8 * i) >>= fun e => pure (L.phyToVir (tableBase e))) := by
    refine .load fun a w _ => ?_
    rw [tableBase_hostView]
    exact .pure _
  rw [map_eq_pure_bind, ptwNextPte, bind_assoc]
  refine .load fun a w ha => ?_
  have hvalid : (hostMapper L attr).valid (hostView attr exact a w) = pteIsValid w :=
    pteIsValid_hostView attr exact a w
  obtain ⟨b, hb⟩ := hostTranslate_table ht i ha
  rw [hvalid]
  cases pteIsValid w with
  | true => exact hreload
  | false =>
    have hlink : Mirrors (hostView attr exact)
        (ptwLinkTable L (t + 8 * i) call >>= fun _ => bumpAvail L t >>= fun _ =>
          load L.hostTranslate (t + 8 * i) >>= fun e => pure (L.phyToVir (tableBase e)))
        ((hostMapper L attr).linkTable (t + 8 * i) >>= fun _ =>
          load L.hostTranslate (t + 8 * i) >>= fun e => pure (L.phyToVir (tableBase e))) :=
      (ptwLinkTable_mirrors hcall _).bind fun _ => .skip (setAvail_mirrors hb) hreload
    simp only [Bool.false_eq_true, if_false, bind_assoc]
    exact hlink

/-- The page of a successful or failed request that can be cleared through the window is a page of
the window. -/
theorem pagePhy_of_window {L : Layout} {bm : Bitmap} {a : Nat}
    (ha : L.hostTranslate (pageVir (allocOnePage bm).1) = some a) :
    ∃ q, q < 2 ^ 18 ∧ L.pagePhy (allocOnePage bm).1 = L.physPage q := by
  rcases allocOnePage_spec bm with ⟨p, hp, he⟩ | ⟨he, -⟩
  · rw [he] at ha ⊢
    have hlt : p < 2 ^ 18 := by
      refine Nat.lt_of_not_le fun hge => ?_
      have hnone := L.hostTranslate_pageVir_high hge (freeRun_one.mp hp.1).2.1
      rw [ha] at hnone
      cases hnone
    exact ⟨p, hlt, L.pagePhy_low (Nat.lt_trans hlt (by decide))⟩
  · rw [he]
    exact ⟨0, by decide, L.pagePhy_total⟩

/-- What `ptwLinkTable` writes names a table. -/
theorem ptwLinkTable_run {nextPte a : Nat} {h h' : Host} (ha : L.hostTranslate nextPte = some a)
    (hrun : ptwLinkTable L nextPte call h = .ok () h') : baseField (h'.mem a) ≠ 0 := by
  rw [ptwLinkTable_eq] at hrun
  obtain ⟨fn, h₁, htake, hrest⟩ := bind_eq_ok hrun
  obtain ⟨u, h₂, hclear, hlast⟩ := bind_eq_ok hrest
  obtain ⟨taken, ht⟩ : ∃ taken, allocOnePage h.bitmap = taken := ⟨_, rfl⟩
  rw [takePage_of ht] at htake
  obtain ⟨rfl, rfl⟩ : taken.1 = fn ∧ _ = h₁ := EStateM.Result.ok.inj htake
  -- the page could be cleared, so it is one of the window
  obtain ⟨b, hb⟩ : ∃ b, L.hostTranslate (pageVir taken.1) = some b := by
    cases hv : L.hostTranslate (pageVir taken.1) with
    | some b => exact ⟨b, rfl⟩
    | none =>
      have htr : (hostMapper L call).tr ((hostMapper L call).pageAddr taken.1) = none := hv
      rw [clearPage, htr] at hclear
      cases hclear
  rw [← ht] at hb
  obtain ⟨q, hq, hphy⟩ := pagePhy_of_window hb
  have htr : (hostMapper L call).tr nextPte = some a := ha
  simp only [storeLink, htr] at hlast
  cases hlast
  have hlink := (host_entry_link (L := L) call (Nat.lt_trans hq (by decide))).1
  show baseField (if a = a then makeStage1Entry (L.pagePhy taken.1) call else _) ≠ 0
  rw [if_pos rfl, ← ht, hphy]
  rw [pteIsValid, Bool.and_eq_true, bne_iff_ne] at hlink
  exact hlink.2

/-- The entry that is followed names a table. -/
theorem ptwNextPte_base {t : Nat} {i : Fin 512} {e : Word} {h h' : Host}
    (hrun : ptwNextPte L t i call h = .ok e h') : baseField e ≠ 0 := by
  obtain ⟨w, h₁, hload, hrun⟩ := bind_eq_ok hrun
  have hread {w : Word} {h h' : Host} (hl : load L.hostTranslate (t + 8 * i) h = .ok w h') :
      ∃ a, L.hostTranslate (t + 8 * i) = some a ∧ w = h.mem a ∧ h' = h := by
    rw [load] at hl
    split at hl
    · cases hl
    · next a ha =>
      cases hl
      exact ⟨a, ha, rfl, rfl⟩
  obtain ⟨a, ha, rfl, rfl⟩ := hread hload
  split at hrun
  · next hv =>
    obtain ⟨a', ha', rfl, -⟩ := hread hrun
    cases ha.symm.trans ha'
    rw [pteIsValid, Bool.and_eq_true, bne_iff_ne] at hv
    exact hv.2
  · obtain ⟨_, h₂, hlink, hrun⟩ := bind_eq_ok hrun
    obtain ⟨_, h₃, hbump, hrun⟩ := bind_eq_ok hrun
    obtain ⟨a', ha', rfl, -⟩ := hread hrun
    cases ha.symm.trans ha'
    have hbase := ptwLinkTable_run ha hlink
    -- counting does not change the address
    have hsame : baseField (h₃.mem a) = baseField (h₂.mem a) := by
      obtain ⟨c, h₄, hl, hs⟩ := bind_eq_ok hbump
      rw [load] at hl
      split at hl
      · cases hl
      · next b hb =>
        cases hl
        rw [store, hb] at hs
        cases hs
        show baseField (if a = b then setAvail (h₂.mem b) _ else h₂.mem a) = _
        split
        · next hab => rw [hab, baseField_setAvail]
        · rfl
    rwa [hsame]

/-- `__ptw_map_4k_page` at level `k`, seen through a view, is the mapper's descent from there. -/
theorem ptwMap4kPage_mirrors (hcall : exact = none ∨ call = attr) (vir phy n : Nat) : ∀ {k t},
    k + n = 3 → t % 4096 = 0 → t ≠ 0 →
      Mirrors (hostView attr exact) (ptwMap4kPage L vir phy call n t)
        ((hostMapper L attr).descendFrom (hostIndex vir)
          ((hostMapper L attr).fillLeaf (hostIndex vir 3) (makeStage1Entry phy attr)) n k t) := by
  induction n with
  | zero =>
    intro k t hk ht h0
    rw [ptwMap4kPage, if_neg h0]
    refine .load fun a w ha => ?_
    obtain ⟨b, hb⟩ := hostTranslate_table ht _ ha
    have htest : ((hostMapper L attr).live (hostView attr exact a w) ||
        (hostMapper L attr).base (hostView attr exact a w) != 0) =
        (validBit w || baseField w != 0) := by
      show (validBit (hostView attr exact a w) || tableBase (hostView attr exact a w) != 0) = _
      rw [validBit_hostView, tableBase_hostView, bne, tableBase_eq_zero]
      rfl
    rw [htest]
    refine .check ?_
    have hleaf : Mirrors (hostView attr exact)
        (storeLeaf L.hostTranslate (t + 8 * hostIndex vir 3) (makeStage1Entry phy call) >>= fun _ =>
          bumpAvail L t >>= fun _ => markAvail L (t + 8 * hostIndex vir 3))
        (storeLeaf L.hostTranslate (t + 8 * hostIndex vir 3) (makeStage1Entry phy attr) >>= fun _ =>
          pure ()) :=
      (Mirrors.storeLeaf fun a => hostView_make1 attr exact a hcall phy).bind fun _ =>
        .skip (setAvail_mirrors hb) (setAvail_mirrors (f := fun _ => 1) ha)
    rw [bind_pure_unit] at hleaf
    exact hleaf
  | succ n ih =>
    intro k t hk ht h0
    have hlevel : 2 - n = k := by omega
    rw [ptwMap4kPage, if_neg h0, hlevel]
    refine Mirrors.bind_of (ptwNextPte_mirrors hcall ht (pteOffset vir k))
      (fun _ _ _ hrun => ptwNextPte_base hrun) fun e he => ?_
    obtain ⟨hal, hne⟩ := phyToVir_tableBase L he
    exact ih (by omega) hal hne

/-- `host_map_one_page`, seen through a view, is the mapper on an empty entry. -/
theorem hostMapOnePage_mirrors (hcall : exact = none ∨ call = attr) {root : Nat} (vir phy : Nat)
    (hr : root % 4096 = 0) (h0 : root ≠ 0) :
    Mirrors (hostView attr exact) (hostMapOnePage L root vir phy call)
      ((hostMapper L attr).mapFree root 3 (hostIndex vir) (makeStage1Entry phy attr)) := by
  have hdescend := (hostMapper L attr).descend_then root (hostIndex vir)
    ((hostMapper L attr).fillLeaf (hostIndex vir 3) (makeStage1Entry phy attr)) 3 0
  have hcode := ptwMap4kPage_mirrors (L := L) hcall vir phy 3 (Nat.zero_add 3) hr h0
  rw [Mapper.mapFree, ← Nat.zero_add 3, ← hdescend]
  exact hcode

/-- `host_unmap_one_page`, seen through a view, is the unmapper. -/
theorem hostUnmapOnePage_mirrors (attr : Nat) (exact : Option Nat) (root vir : Nat) :
    Mirrors (hostView attr exact) (hostUnmapOnePage L root vir)
      ((hostMapper L attr).unmapAt (hostIndex vir) 3 0 root) := by
  rw [hostUnmapOnePage_eq L attr]
  exact (hostView_keeps L attr exact).unmapAt (hostIndex vir) 3 0 root

end

end HyperCore.AArch64
