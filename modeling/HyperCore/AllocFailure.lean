import HyperCore.Core.Kmalloc
import HyperCore.AArch64.PageTableS2
import HyperCore.Riscv64.PgMap

/-!
# A full pool and the callers of the allocator

`alloc_pages_cnt` answers `TOTAL_PAGES` when it fails; its callers test for a
negative number. So `s2_next_level_map` and `pg_next_level` take page 0 of the pool
for a new table and clear it, and `alloc_mem_pool` hands it out.

The first part is about any `Mapper`: what one level of the descent clears and links,
with and without a page to take. `alloc_failure_recognised` then states for each of
the three callers the exact condition under which it takes free pages only and
reports a failure.
-/

namespace HyperCore.AllocFailure

open Bitmap PageAlloc ArchPage TableMap Kmalloc

/-! ## What a call took -/

/-- The state a run ends in, whether it returned or not. -/
def stateOf {α : Type} : EStateM.Result Stop Host α → Host
  | .ok _ h => h
  | .error _ h => h

/-- `c` is a page of the pool that is free in `h`. -/
def WasFree (L : Layout) (h : Host) (c : Nat) : Prop :=
  ∃ p, p < totalPages ∧ c = L.physPage p ∧ bit h.bitmap p = false

/-- Every page the run cleared or linked was free before. -/
def TakesFree (L : Layout) (h : Host) {α : Type} (r : EStateM.Result Stop Host α) : Prop :=
  ∃ l, (stateOf r).log = l ++ h.log ∧ (∀ c, .zero c ∈ l → WasFree L h c) ∧
    ∀ s c, .link s c ∈ l → WasFree L h c

/-- What a table mapper owes: with no page to take it reports a failure, clearing and
linking nothing, and whatever it does clear or link was free. -/
structure Recognises (L : Layout) (h : Host) (unsat : Prop) {α : Type}
    (failed : EStateM.Result Stop Host α → Prop) (r : EStateM.Result Stop Host α) : Prop where
  reports : unsat → failed r ∧ (stateOf r).log = h.log
  free : TakesFree L h r

/-- No page can be taken: the allocator hands out even pages only. -/
def PoolFull (h : Host) : Prop := evenFree h.bitmap (totalPages / 2) = 0

theorem TakesFree.of_log {L : Layout} {h : Host} {α : Type} {r : EStateM.Result Stop Host α}
    (hr : (stateOf r).log = h.log) : TakesFree L h r :=
  ⟨[], by rw [hr, List.nil_append], nofun, nofun⟩

/-- What runs after the last event does not matter. -/
theorem takesFree_congr {L : Layout} {h : Host} {α β : Type} {r : EStateM.Result Stop Host α}
    {r' : EStateM.Result Stop Host β} (hr : (stateOf r').log = (stateOf r).log) :
    TakesFree L h r' ↔ TakesFree L h r := by
  rw [TakesFree, TakesFree, hr]

theorem stateOf_bind_pure {α β : Type} {x : HostM α} {f : α → β} {h : Host} :
    stateOf ((x >>= fun a => pure (f a)) h) = stateOf (x h) := by
  cases hx : x h with
  | ok a h' =>
    rw [bind_ok hx]
    rfl
  | error e h' =>
    rw [bind_error hx]
    rfl

/-! ## One level of the descent -/

section

variable {L : Layout} {M : Mapper L} {h : Host} {table i a : Nat}

/-- The level asks the allocator for a page: its entry can be read and is not valid. -/
def Asks (M : Mapper L) (h : Host) (va : Nat) : Prop :=
  ∃ a, M.tr va = some a ∧ M.valid (h.mem a) = false

/-- The rest of a level after the entry was filled: it reads, and logs nothing. -/
theorem follow_log (table va : Nat) (h : Host) :
    (stateOf ((load M.tr va >>= fun e =>
      if M.stop e then pure table else pure (M.tableAddr (M.base e))) h)).log = h.log := by
  cases htr : M.tr va with
  | none =>
    have hload : load M.tr va h = .error .fault h := by simp only [load, htr]
    rw [bind_error hload]
    rfl
  | some a =>
    have hload : load M.tr va h = .ok (h.mem a) h := by simp only [load, htr]
    rw [bind_ok hload]
    split <;> rfl

/-- A level that does not ask logs nothing. -/
theorem nextTable_quiet (hno : ¬ Asks M h (table + 8 * i)) :
    (stateOf (M.nextTable table i h)).log = h.log := by
  rw [Mapper.nextTable]
  cases htr : M.tr (table + 8 * i) with
  | none =>
    have hload : load M.tr (table + 8 * i) h = .error .fault h := by simp only [load, htr]
    rw [bind_error hload]
    rfl
  | some a =>
    have hload : load M.tr (table + 8 * i) h = .ok (h.mem a) h := by simp only [load, htr]
    rw [bind_ok hload]
    cases hv : M.valid (h.mem a) with
    | false => exact absurd ⟨a, htr, hv⟩ hno
    | true =>
      simp only [if_true]
      exact follow_log table _ h

/-- A level that asks logs what linking a table logs. -/
theorem nextTable_asks (htr : M.tr (table + 8 * i) = some a) (hv : M.valid (h.mem a) = false) :
    (stateOf (M.nextTable table i h)).log = (stateOf (M.linkTable (table + 8 * i) h)).log := by
  have hload : load M.tr (table + 8 * i) h = .ok (h.mem a) h := by simp only [load, htr]
  rw [Mapper.nextTable, bind_ok hload]
  simp only [hv, Bool.false_eq_true, if_false]
  cases hl : M.linkTable (table + 8 * i) h with
  | ok u h' =>
    rw [bind_ok hl]
    exact follow_log table _ h'
  | error e h' =>
    rw [bind_error hl]
    rfl

/-- Linking a table, by the page number the allocator answered. -/
theorem linkTable_log {va : Nat} {fn : Int} {bm : Bitmap} (htr : M.tr va = some a)
    (ha : allocOnePage h.bitmap = (fn, bm)) :
    (stateOf (M.linkTable va h)).log =
      match M.tr (M.pageAddr fn) with
      | none => h.log
      | some c => .link a (M.base (M.entry (L.pagePhy fn))) :: .zero c :: h.log := by
  have htake : takePage h = .ok fn { h with bitmap := bm } := by simp only [takePage, ha]
  rw [Mapper.linkTable, bind_ok htake]
  cases hp : M.tr (M.pageAddr fn) with
  | none =>
    simp only [bind, EStateM.bind, clearPage, hp, stateOf]
  | some c =>
    simp only [bind, EStateM.bind, clearPage, storeLink, hp, htr, stateOf]

/-- With a page in reach the level takes a free page. -/
theorem nextTable_low (hpos : 0 < evenFree h.bitmap M.half) :
    TakesFree L h (M.nextTable table i h) := by
  by_cases hasks : Asks M h (table + 8 * i)
  · obtain ⟨a, htr, hv⟩ := hasks
    have hhalf := M.half_le
    obtain ⟨p, hp, hrun, ha⟩ := allocOnePage_low (Nat.le_trans hhalf (by decide)) hpos
    have hlog := nextTable_asks htr hv
    have h20 : p < totalPages := by
      simp only [totalPages]
      omega
    have hfree : WasFree L h (L.physPage p) := ⟨p, h20, rfl, (freeRun_one.mp hrun.1).2.2⟩
    rw [linkTable_log htr ha, M.tr_page hp, L.pagePhy_low (by omega),
      (M.entry_link (by omega)).2.2] at hlog
    refine ⟨[.link a (L.physPage p), .zero (L.physPage p)], hlog, fun c hc => ?_, fun s c hc => ?_⟩
    · rcases List.mem_cons.mp hc with hc | hc
      · cases hc
      · cases List.mem_singleton.mp hc
        exact hfree
    · rcases List.mem_cons.mp hc with hc | hc
      · cases hc
        exact hfree
      · cases List.mem_singleton.mp hc
  · exact .of_log (nextTable_quiet hasks)

/-- With only pages out of reach, where these fault, it takes nothing. -/
theorem nextTable_high (hf : M.FaultsHigh) (hlow : evenFree h.bitmap M.half = 0)
    (hpos : 0 < evenFree h.bitmap (2 ^ 19)) : TakesFree L h (M.nextTable table i h) := by
  refine .of_log ?_
  by_cases hasks : Asks M h (table + 8 * i)
  · obtain ⟨a, htr, hv⟩ := hasks
    obtain ⟨p, hp, hge, hrun, ha⟩ := allocOnePage_high hlow hpos
    rw [nextTable_asks htr hv, linkTable_log htr ha, hf p hge (by omega)]
  · exact nextTable_quiet hasks

/-- With only pages out of reach, where these do not fault, it links an address outside
the pool. -/
theorem nextTable_outside (hasks : Asks M h (table + 8 * i))
    (hreach : ∀ fn, (M.tr (M.pageAddr fn)).isSome) (hlow : evenFree h.bitmap M.half = 0)
    (hpos : 0 < evenFree h.bitmap (2 ^ 19)) : ¬ TakesFree L h (M.nextTable table i h) := by
  rintro ⟨l, hlog, -, hlink⟩
  obtain ⟨a, htr, hv⟩ := hasks
  obtain ⟨p, hp, hge, hrun, ha⟩ := allocOnePage_high hlow hpos
  obtain ⟨c, hc⟩ := Option.isSome_iff_exists.mp (hreach p)
  rw [nextTable_asks htr hv, linkTable_log htr ha, hc] at hlog
  have hl : l = [.link a (M.base (M.entry (L.pagePhy p))), .zero c] :=
    (List.append_cancel_right (show _ ++ h.log = _ ++ h.log from hlog)).symm
  obtain ⟨q, hq, he, -⟩ := hlink a _ (by rw [hl]; exact List.mem_cons_self)
  refine (M.high hge (by omega)).elim (fun hn => ?_) fun hno => hno q hq he
  rw [hc] at hn
  cases hn

/-- With no page at all it clears and links page 0. -/
theorem nextTable_full (hasks : Asks M h (table + 8 * i))
    (hzero : M.tr (M.pageAddr totalPages) = some (L.physPage 0)) (hfull : PoolFull h) :
    ¬ TakesFree L h (M.nextTable table i h) := by
  rintro ⟨l, hlog, hz, -⟩
  obtain ⟨a, htr, hv⟩ := hasks
  have ha : allocOnePage h.bitmap = ((totalPages : Int), h.bitmap) := by
    rcases allocOnePage_spec h.bitmap with ⟨p, hp, -⟩ | ⟨ha, -⟩
    · have hlt := hp.lt_total (Nat.le_refl 1)
      have hpos : 0 < evenFree h.bitmap (totalPages / 2) :=
        evenFree_of_leastRun hp (by simp only [totalPages] at *; omega)
      exact absurd hfull (Nat.ne_of_gt hpos)
    · exact ha
  rw [nextTable_asks htr hv, linkTable_log htr ha, hzero] at hlog
  have hl : l = [.link a (M.base (M.entry (L.pagePhy totalPages))), .zero (L.physPage 0)] :=
    (List.append_cancel_right (show _ ++ h.log = _ ++ h.log from hlog)).symm
  obtain ⟨q, -, he, hq⟩ := hz (L.physPage 0) (by rw [hl]; simp)
  cases L.physPage_inj he
  have hpos : 0 < evenFree h.bitmap (totalPages / 2) := evenFree_pos (k := 0) (by decide) hq
  exact Nat.ne_of_gt hpos hfull

end

/-! ## The callers -/

section

variable (L : Layout)

/-- `s2_next_level_map` needs a new table page. -/
def S2Asks (h : Host) (vtable level offset : Nat) : Prop :=
  level ≠ 3 ∧ Asks (AArch64.s2Mapper L) h (vtable + 8 * offset)

/-- `pg_next_level` needs a new table page. -/
def PgAsks (withoutMmu : Bool) (h : Host) (vtable level offset : Nat) : Prop :=
  level ≠ 3 ∧ Asks (Riscv64.pgMapper L withoutMmu) h (vtable + 8 * offset)

/-- `s2_next_level_map` recognises a failed allocation: it stops in `hyper_fatal`. -/
def S2Recognises (h : Host) (vtable level offset : Nat) : Prop :=
  Recognises L h (S2Asks L h vtable level offset ∧ PoolFull h)
    (fun r => ∃ h', r = .error .fatal h') (AArch64.s2NextLevelMap L vtable level offset h)

/-- `pg_next_level` recognises a failed allocation: it returns -1. -/
def PgRecognises (withoutMmu : Bool) (h : Host) (vtable level offset : Nat) : Prop :=
  Recognises L h (PgAsks L withoutMmu h vtable level offset ∧ PoolFull h)
    (fun r => ∃ t h', r = .ok (-1, t) h') (Riscv64.pgNextLevel L withoutMmu vtable level offset h)

/-- The even pages that `pg_next_level` can use. Through the direct map a page past the
window faults before it is cleared. -/
def pgUsable (withoutMmu : Bool) : Nat := if withoutMmu then 2 ^ 18 else 2 ^ 19

end

section

variable {L : Layout} {h : Host} {vtable level offset : Nat}

/-- At the last level `s2_next_level_map` only ever stops. -/
theorem s2NextLevelMap_last (h : Host) :
    (stateOf (AArch64.s2NextLevelMap L vtable 3 offset h)).log = h.log := by
  rw [AArch64.s2NextLevelMap]
  cases htr : L.hostTranslate (vtable + 8 * offset) with
  | none =>
    have hload : load L.hostTranslate (vtable + 8 * offset) h = .error .fault h := by
      simp only [load, htr]
    rw [bind_error hload]
    rfl
  | some a =>
    have hload : load L.hostTranslate (vtable + 8 * offset) h = .ok (h.mem a) h := by
      simp only [load, htr]
    rw [bind_ok hload]
    cases AArch64.pteIsValid (h.mem a) <;> rfl

/-- `PAGE_VIR(TOTAL_PAGES)` is page 0 of the window. -/
theorem hostTranslate_total (L : Layout) :
    L.hostTranslate (pageVir totalPages) = some (L.physPage 0) := by
  rw [pageVir_total, ← Nat.add_zero pageVirtOffset, L.hostTranslate_window (by decide)]
  rfl

theorem s2Mapper_total (L : Layout) : (AArch64.s2Mapper L).tr
    ((AArch64.s2Mapper L).pageAddr totalPages) = some (L.physPage 0) := by
  have htr := hostTranslate_total L
  simp only [AArch64.s2Mapper, htr]

theorem pgMapper_total (L : Layout) (withoutMmu : Bool) : (Riscv64.pgMapper L withoutMmu).tr
    ((Riscv64.pgMapper L withoutMmu).pageAddr totalPages) = some (L.physPage 0) := by
  cases withoutMmu with
  | true =>
    have hphy := L.pagePhy_total
    simp only [Riscv64.pgMapper, Riscv64.reach, Riscv64.newPageAddr, if_true, hphy]
  | false =>
    have htr := hostTranslate_total L
    simp only [Riscv64.pgMapper, Riscv64.reach_direct, Riscv64.newPageAddr_direct, htr]

theorem s2_recognises_iff :
    S2Recognises L h vtable level offset ↔
      (S2Asks L h vtable level offset → 0 < evenFree h.bitmap (totalPages / 2)) := by
  constructor
  · rintro ⟨-, hfree⟩ ⟨hl, hasks⟩
    refine Nat.pos_of_ne_zero fun hfull => ?_
    rw [AArch64.s2NextLevelMap_eq L _ _ hl] at hfree
    exact nextTable_full hasks (s2Mapper_total L) hfull hfree
  · intro hroom
    refine ⟨fun ⟨hasks, hfull⟩ => absurd hfull (Nat.ne_of_gt (hroom hasks)), ?_⟩
    by_cases hl : level = 3
    · rw [hl]
      exact .of_log (s2NextLevelMap_last h)
    · rw [AArch64.s2NextLevelMap_eq L _ _ hl]
      by_cases hasks : Asks (AArch64.s2Mapper L) h (vtable + 8 * offset)
      · have hpos := hroom ⟨hl, hasks⟩
        rcases Nat.eq_zero_or_pos (evenFree h.bitmap (AArch64.s2Mapper L).half) with hlow | hlow
        · exact nextTable_high (AArch64.s2Mapper_faultsHigh L) hlow hpos
        · exact nextTable_low hlow
      · exact .of_log (nextTable_quiet hasks)

/-- At the last level `pg_next_level` only reads. -/
theorem pgNextLevel_last {withoutMmu : Bool} (h : Host) :
    (stateOf (Riscv64.pgNextLevel L withoutMmu vtable 3 offset h)).log = h.log := by
  have hfollow : (stateOf (Riscv64.pgFollow L withoutMmu vtable offset h)).log = h.log := by
    rw [Riscv64.pgFollow_eq, stateOf_bind_pure]
    exact follow_log vtable _ h
  rw [Riscv64.pgNextLevel]
  cases htr : Riscv64.reach L withoutMmu (vtable + 8 * offset) with
  | none =>
    have hload : load (Riscv64.reach L withoutMmu) (vtable + 8 * offset) h = .error .fault h := by
      simp only [load, htr]
    rw [bind_error hload]
    rfl
  | some a =>
    have hload : load (Riscv64.reach L withoutMmu) (vtable + 8 * offset) h = .ok (h.mem a) h := by
      simp only [load, htr]
    rw [bind_ok hload]
    simpa using hfollow

/-- Above the last level `pg_next_level` takes what the mapper takes. -/
theorem pgNextLevel_takesFree {withoutMmu : Bool} (hl : level ≠ 3) :
    TakesFree L h (Riscv64.pgNextLevel L withoutMmu vtable level offset h) ↔
      TakesFree L h ((Riscv64.pgMapper L withoutMmu).nextTable vtable offset h) := by
  rw [Riscv64.pgNextLevel_eq L withoutMmu _ _ hl]
  exact takesFree_congr (by rw [stateOf_bind_pure])

theorem pg_recognises_iff {withoutMmu : Bool} :
    PgRecognises L withoutMmu h vtable level offset ↔
      (PgAsks L withoutMmu h vtable level offset → 0 < evenFree h.bitmap (pgUsable withoutMmu)) := by
  have hhalf : totalPages / 2 = 2 ^ 19 := by decide
  constructor
  · rintro ⟨-, hfree⟩ ⟨hl, hasks⟩
    rw [pgNextLevel_takesFree hl] at hfree
    refine Nat.pos_of_ne_zero fun hnone => ?_
    rcases Nat.eq_zero_or_pos (evenFree h.bitmap (2 ^ 19)) with hfull | hpos
    · refine nextTable_full hasks (pgMapper_total L withoutMmu) ?_ hfree
      rw [PoolFull, hhalf]
      exact hfull
    · cases withoutMmu with
      | false => exact Nat.ne_of_gt hpos hnone
      | true =>
        refine nextTable_outside hasks (fun fn => ?_) hnone hpos hfree
        simp only [Riscv64.pgMapper, Riscv64.reach, if_true, Option.isSome_some]
  · intro hroom
    constructor
    · rintro ⟨hasks, hfull⟩
      have hpos := Nat.lt_of_lt_of_le (hroom hasks)
        (evenFree_mono (show pgUsable withoutMmu ≤ 2 ^ 19 by unfold pgUsable; split <;> omega))
      rw [PoolFull, hhalf] at hfull
      exact absurd hfull (Nat.ne_of_gt hpos)
    · by_cases hl : level = 3
      · rw [hl]
        exact .of_log (pgNextLevel_last h)
      · rw [pgNextLevel_takesFree hl]
        by_cases hasks : Asks (Riscv64.pgMapper L withoutMmu) h (vtable + 8 * offset)
        · have hpos := hroom ⟨hl, hasks⟩
          rcases Nat.eq_zero_or_pos (evenFree h.bitmap (Riscv64.pgMapper L withoutMmu).half) with
            hlow | hlow
          · cases withoutMmu with
            | true => exact absurd hlow (Nat.ne_of_gt hpos)
            | false => exact nextTable_high (Riscv64.pgMapper_faultsHigh L) hlow hpos
          · exact nextTable_low hlow
        · exact .of_log (nextTable_quiet hasks)

end

/-- For every allocator state, when each of the three callers recognises a failed
allocation: a table mapper that needs a page must find a usable free one, and a pool
must fit `PoolRoom`. -/
theorem alloc_failure_recognised (L : Layout) (h : Host) :
    (∀ vtable level offset : Nat, S2Recognises L h vtable level offset ↔
      (S2Asks L h vtable level offset → 0 < evenFree h.bitmap (totalPages / 2))) ∧
    (∀ (withoutMmu : Bool) (vtable level offset : Nat),
      PgRecognises L withoutMmu h vtable level offset ↔
      (PgAsks L withoutMmu h vtable level offset →
        0 < evenFree h.bitmap (pgUsable withoutMmu))) ∧
    ∀ size : Word, PoolRecognises size h ↔ PoolRoom size h.bitmap :=
  ⟨fun _ _ _ => s2_recognises_iff, fun _ _ _ _ => pg_recognises_iff,
    fun size => allocMemPool_recognises size h⟩

/-- A pool without a free page. -/
def fullPool : Bitmap := fun _ => BitVec.allOnes 64

theorem bit_fullPool (n : Nat) : bit fullPool n = true := by
  rw [bit, fullPool, BitVec.getLsbD_allOnes]
  exact decide_eq_true (Nat.mod_lt _ (by decide))

theorem evenFree_fullPool (n : Nat) : evenFree fullPool n = 0 := by
  refine Nat.eq_zero_of_not_pos fun hpos => ?_
  obtain ⟨k, -, hk⟩ := exists_of_evenFree_pos hpos
  rw [bit_fullPool] at hk
  cases hk

/-- In a full pool, at an empty entry of a table and for a pool of one page, none of
the three recognises the failure. -/
theorem alloc_failure_missed :
    ¬ S2Recognises Riscv64.imageLayout (clearHost fullPool) pageVirtOffset 0 0 ∧
    ¬ PgRecognises Riscv64.imageLayout false (clearHost fullPool) pageVirtOffset 0 0 ∧
    ¬ PgRecognises Riscv64.imageLayout true (clearHost fullPool) 0x80300000 0 0 ∧
    ¬ PoolRecognises 4096 (clearHost fullPool) := by
  have hnone : ∀ n, ¬ 0 < evenFree (clearHost fullPool).bitmap n := by
    intro n
    rw [show (clearHost fullPool).bitmap = fullPool from rfl, evenFree_fullPool]
    exact Nat.lt_irrefl 0
  have htr : Riscv64.imageLayout.hostTranslate (pageVirtOffset + 8 * 0) =
      some (Riscv64.imageLayout.pagePhysOffset + 8 * 0) :=
    Riscv64.imageLayout.hostTranslate_window (by decide)
  refine ⟨fun hr => ?_, fun hr => ?_, fun hr => ?_, fun hr => ?_⟩
  · exact hnone _ (s2_recognises_iff.mp hr ⟨by decide, _, htr, rfl⟩)
  · have htr' : (Riscv64.pgMapper Riscv64.imageLayout false).tr (pageVirtOffset + 8 * 0) =
        some (Riscv64.imageLayout.pagePhysOffset + 8 * 0) := by
      simp only [Riscv64.pgMapper, Riscv64.reach_direct, htr]
    exact hnone _ (pg_recognises_iff.mp hr ⟨by decide, _, htr', rfl⟩)
  · exact hnone _ (pg_recognises_iff.mp hr ⟨by decide, _, rfl, rfl⟩)
  · have hn : poolPages 4096 = 1 := by decide
    rcases (allocMemPool_recognises _ _).mp hr with h0 | ⟨p, -, hp⟩ | ⟨hlt, -⟩
    · exact absurd h0 (by decide)
    · rw [hn] at hp
      have hclear : bit fullPool p = false := (freeRun_one.mp hp.1).2.2
      rw [bit_fullPool] at hclear
      cases hclear
    · rw [hn] at hlt
      exact absurd hlt (by decide)

end HyperCore.AllocFailure
