import Mathlib

/-!
# Virtual interrupts: the queue and the list registers

A virtual interrupt waits in the task's queue (`pending_virq`) until
`gic_vcpu_flush_lr` finds a list register that is neither pending nor active. The
guest moves a list register from pending to active and from active to free, and a
context switch saves and restores the whole bank.

- The queue is an array with a count; flush compacts it in place. `toList` is the
  queue as a list.
- The bank is a function from the register's number to its word. `liveVirqs` lists the
  interrupts of the registers in use.
-/

namespace HyperCore.Vgic

/-! ## List registers -/

/-- `ICH_LR_GROUP1` -/
def ichLrGroup1 : BitVec 64 := 1 <<< 60

/-- `ICH_LR_PEND` -/
def ichLrPend : BitVec 64 := 1 <<< 62

/-- `ICH_LR_ACT` -/
def ichLrAct : BitVec 64 := 1 <<< 63

/-- `ICH_LR_VINTID(v)` -/
def ichLrVintid (virq : BitVec 32) : BitVec 64 := virq.zeroExtend 64

/-- `ICH_LR_PRIO(p)` -/
def ichLrPrio (p : BitVec 8) : BitVec 64 := p.zeroExtend 64 <<< 48

/-- The word that `gic_vcpu_flush_lr` writes. -/
def lrWord (virq : BitVec 32) : BitVec 64 :=
  ichLrVintid virq ||| ichLrGroup1 ||| ichLrPend ||| ichLrPrio 0xa0

/-- `old_lr & (ICH_LR_PEND | ICH_LR_ACT)` -/
def live (w : BitVec 64) : Bool := w &&& (ichLrPend ||| ichLrAct) != 0

/-- The vINTID field. -/
def vintid (w : BitVec 64) : BitVec 32 := w.truncate 32

theorem live_zero : live 0 = false := by
  decide

theorem live_iff (w : BitVec 64) : live w = (w.getLsbD 62 || w.getLsbD 63) := by
  rw [Bool.eq_iff_iff, Bool.or_eq_true]
  simp only [live, bne_iff_ne, ne_eq]
  refine ⟨fun h => ?_, fun h he => ?_⟩
  · rcases hp : w.getLsbD 62 with _ | _
    · rcases ha : w.getLsbD 63 with _ | _
      · refine absurd (BitVec.eq_of_getLsbD_eq fun i hi => ?_) h
        have hmask : (ichLrPend ||| ichLrAct).getLsbD i = decide (i = 62 ∨ i = 63) := by
          revert hi i
          decide
        rw [BitVec.getLsbD_and, hmask]
        by_cases hi62 : i = 62 ∨ i = 63
        · rcases hi62 with rfl | rfl
          · rw [hp, Bool.false_and]
            exact BitVec.getLsbD_zero.symm
          · rw [ha, Bool.false_and]
            exact BitVec.getLsbD_zero.symm
        · simp [hi62]
      · exact .inr rfl
    · exact .inl rfl
  · have hbit : ∀ i, (w &&& (ichLrPend ||| ichLrAct)).getLsbD i = false := by
      intro i
      rw [he]
      exact BitVec.getLsbD_zero
    rcases h with h | h
    · have h62 := hbit 62
      rw [BitVec.getLsbD_and, h] at h62
      exact absurd h62 (by decide)
    · have h63 := hbit 63
      rw [BitVec.getLsbD_and, h] at h63
      exact absurd h63 (by decide)

/-- A freshly written register is live and holds its interrupt. -/
theorem live_lrWord (virq : BitVec 32) : live (lrWord virq) = true := by
  have hbit : (lrWord virq).getLsbD 62 = true := by
    have hpend : ichLrPend.getLsbD 62 = true := by decide
    simp only [lrWord, BitVec.getLsbD_or, hpend, Bool.or_true, Bool.true_or]
  rw [live_iff, hbit, Bool.true_or]

theorem vintid_lrWord (virq : BitVec 32) : vintid (lrWord virq) = virq := by
  refine BitVec.eq_of_getLsbD_eq fun i hi => ?_
  have hrest : (ichLrGroup1 ||| ichLrPend ||| ichLrPrio 0xa0).getLsbD i = false := by
    revert hi i
    decide
  simp only [BitVec.getLsbD_or] at hrest
  simp only [Bool.or_eq_false_iff] at hrest
  simp only [vintid, lrWord, ichLrVintid, BitVec.truncate_eq_setWidth, BitVec.getLsbD_setWidth,
    BitVec.getLsbD_or, hrest]
  simp [hi, Nat.lt_trans hi (by decide : 32 < 64)]

/-! ## The code -/

/-- `VCPU_MAX_PENDING_VIRQ` -/
def vcpuMaxPendingVirq : Nat := 8

/-- `VCPU_MAX_VGIC_LRS` -/
def vcpuMaxVgicLrs : Nat := 16

/-- The queue of a `hyper_task_t`. -/
structure VirqQueue where
  pendingVirq : Nat → BitVec 32
  pendingVirqCount : Nat

/-- The virtual CPU interface of a pCPU. -/
structure IchRegs where
  hcr : BitVec 64
  vmcr : BitVec 64
  ap0r : Nat → BitVec 64
  ap1r : Nat → BitVec 64
  lr : Nat → BitVec 64

/-- `vcpu->arch.vgic` -/
structure VgicContext where
  hcr : BitVec 64
  vmcr : BitVec 64
  ap0r : Nat → BitVec 64
  ap1r : Nat → BitVec 64
  lr : Nat → BitVec 64
  lrCount : Nat
  initialized : Bool

/-- `gic_emul_probe_cpuif_caps`: the number of list registers, from `ICH_VTR_EL2`. -/
def gicEmulLrCount (vtr : BitVec 64) : Nat :=
  let count := (vtr &&& 0x1f).toNat + 1
  if count < vcpuMaxVgicLrs then count else vcpuMaxVgicLrs

/-- `gic_emul_apr_count` -/
def gicEmulAprCount : Nat := 1

/-- `gic_emul_default_vmcr` -/
def gicEmulDefaultVmcr : BitVec 64 := 1 <<< 1 ||| 1 <<< 9 ||| 0xff <<< 24

/-- The first `n` entries of `new`, the others of `old`: a copy loop. -/
def copyFirst (n : Nat) (new old : Nat → BitVec 64) (i : Nat) : BitVec 64 :=
  if i < n then new i else old i

/-- `gic_vcpu_save` -/
def gicVcpuSave (lrCount : Nat) (hw : IchRegs) (ctx : VgicContext) : VgicContext where
  hcr := hw.hcr
  vmcr := hw.vmcr
  lrCount := lrCount
  ap0r := copyFirst gicEmulAprCount hw.ap0r ctx.ap0r
  ap1r := copyFirst gicEmulAprCount hw.ap1r ctx.ap1r
  lr := copyFirst lrCount hw.lr ctx.lr
  initialized := true

/-- `gic_vcpu_restore` -/
def gicVcpuRestore (lrCount : Nat) (ctx : VgicContext) (hw : IchRegs) : IchRegs :=
  let clear := copyFirst lrCount (fun _ => 0) hw.lr
  if ctx.initialized then
    { hcr := ctx.hcr ||| 1
      vmcr := ctx.vmcr
      ap0r := copyFirst gicEmulAprCount ctx.ap0r hw.ap0r
      ap1r := copyFirst gicEmulAprCount ctx.ap1r hw.ap1r
      lr := copyFirst (if ctx.lrCount < lrCount then ctx.lrCount else lrCount) ctx.lr clear }
  else
    { hcr := 1
      vmcr := gicEmulDefaultVmcr
      ap0r := copyFirst gicEmulAprCount (fun _ => 0) hw.ap0r
      ap1r := copyFirst gicEmulAprCount (fun _ => 0) hw.ap1r
      lr := clear }

/-- `gic_vcpu_init_pcpu` -/
def gicVcpuInitPcpu (lrCount : Nat) (hw : IchRegs) : IchRegs where
  hcr := 1
  vmcr := gicEmulDefaultVmcr
  ap0r := copyFirst gicEmulAprCount (fun _ => 0) hw.ap0r
  ap1r := copyFirst gicEmulAprCount (fun _ => 0) hw.ap1r
  lr := copyFirst lrCount (fun _ => 0) hw.lr

/-- `gic_vcpu_inject_virq`: a full queue drops, a queued interrupt is not queued again. -/
def gicVcpuInjectVirq (q : VirqQueue) (virq : BitVec 32) : VirqQueue :=
  if vcpuMaxPendingVirq ≤ q.pendingVirqCount then q
  else if (List.range q.pendingVirqCount).any fun i => q.pendingVirq i == virq then q
  else
    { pendingVirq := Function.update q.pendingVirq q.pendingVirqCount virq
      pendingVirqCount := q.pendingVirqCount + 1 }

/-- The search of `gic_vcpu_flush_lr` for a list register that is not in use. -/
def freeSlot (lrCount : Nat) (lr : Nat → BitVec 64) : Option Nat :=
  (List.range lrCount).find? fun i => !live (lr i)

/-- The loop of `gic_vcpu_flush_lr`, `n` rounds from index `i` on. -/
def flushLoop (lrCount : Nat) : (n i keep : Nat) → (Nat → BitVec 32) → (Nat → BitVec 64) →
    VirqQueue × (Nat → BitVec 64)
  | 0, _, keep, pend, lr => (⟨pend, keep⟩, lr)
  | n + 1, i, keep, pend, lr =>
    match freeSlot lrCount lr with
    | none => flushLoop lrCount n (i + 1) (keep + 1) (Function.update pend keep (pend i)) lr
    | some slot =>
      flushLoop lrCount n (i + 1) keep pend (Function.update lr slot (lrWord (pend i)))

/-- `gic_vcpu_flush_lr` -/
def gicVcpuFlushLr (lrCount : Nat) (q : VirqQueue) (lr : Nat → BitVec 64) :
    VirqQueue × (Nat → BitVec 64) :=
  flushLoop lrCount q.pendingVirqCount 0 0 q.pendingVirq lr

/-! ## Queue and bank as lists -/

/-- The first `n` entries of an array. -/
def firstN {α : Type} (f : Nat → α) (n : Nat) : List α := (List.range n).map f

/-- The queue. -/
def VirqQueue.toList (q : VirqQueue) : List (BitVec 32) := firstN q.pendingVirq q.pendingVirqCount

/-- The interrupt in a list register, if it is in use. -/
def lrVirq (w : BitVec 64) : Option (BitVec 32) := if live w then some (vintid w) else none

/-- The interrupts in the list registers. -/
def liveVirqs (lrCount : Nat) (lr : Nat → BitVec 64) : List (BitVec 32) :=
  (List.range lrCount).filterMap fun i => lrVirq (lr i)

/-- The number of list registers that are not in use. -/
def freeLrs (lrCount : Nat) (lr : Nat → BitVec 64) : Nat :=
  (List.range lrCount).countP fun i => !live (lr i)

theorem firstN_succ {α : Type} (f : Nat → α) (n : Nat) :
    firstN f (n + 1) = firstN f n ++ [f n] := by
  simp [firstN, List.range_succ]

theorem firstN_congr {α : Type} {f g : Nat → α} {n : Nat} (h : ∀ i, i < n → f i = g i) :
    firstN f n = firstN g n :=
  List.map_congr_left fun i hi => h i (List.mem_range.mp hi)

theorem firstN_cons {α : Type} (f : Nat → α) (n : Nat) :
    firstN f (n + 1) = f 0 :: firstN (fun k => f (k + 1)) n := by
  simp [firstN, List.range_succ_eq_map, List.map_map, Function.comp_def]

theorem liveVirqs_succ (n : Nat) (lr : Nat → BitVec 64) :
    liveVirqs (n + 1) lr = liveVirqs n lr ++ (lrVirq (lr n)).toList := by
  rw [liveVirqs, List.range_succ, List.filterMap_append]
  cases h : lrVirq (lr n) <;> simp [liveVirqs, h]

theorem liveVirqs_congr {n : Nat} {lr lr' : Nat → BitVec 64} (h : ∀ i, i < n → lr i = lr' i) :
    liveVirqs n lr = liveVirqs n lr' :=
  List.filterMap_congr fun i hi => by rw [h i (List.mem_range.mp hi)]

/-- A cleared bank. -/
theorem liveVirqs_clear (n : Nat) (lr : Nat → BitVec 64) :
    liveVirqs n (copyFirst n (fun _ => 0) lr) = [] := by
  refine List.filterMap_eq_nil_iff.mpr fun i hi => ?_
  rw [copyFirst, if_pos (List.mem_range.mp hi), lrVirq, live_zero]
  rfl

theorem freeLrs_succ (n : Nat) (lr : Nat → BitVec 64) :
    freeLrs (n + 1) lr = freeLrs n lr + if live (lr n) then 0 else 1 := by
  rw [freeLrs, List.range_succ, List.countP_append]
  cases h : live (lr n) <;> simp [freeLrs, h]

theorem freeLrs_congr {n : Nat} {lr lr' : Nat → BitVec 64} (h : ∀ i, i < n → lr i = lr' i) :
    freeLrs n lr = freeLrs n lr' :=
  List.countP_congr fun i hi => by rw [h i (List.mem_range.mp hi)]

/-! ## Flush -/

section

variable {n slot : Nat} {lr : Nat → BitVec 64}

theorem freeSlot_some (h : freeSlot n lr = some slot) : slot < n ∧ live (lr slot) = false := by
  refine ⟨List.mem_range.mp (List.mem_of_find?_eq_some h), ?_⟩
  simpa using List.find?_some h

theorem freeSlot_none (h : freeSlot n lr = none) {i : Nat} (hi : i < n) : live (lr i) = true := by
  simpa using List.find?_eq_none.mp h i (List.mem_range.mpr hi)

theorem freeLrs_eq_zero (h : freeSlot n lr = none) : freeLrs n lr = 0 :=
  List.countP_eq_zero.mpr fun i hi => by simp [freeSlot_none h (List.mem_range.mp hi)]

/-- A register below the slot keeps its word. -/
theorem update_below {w : BitVec 64} {m : Nat} (hm : m ≤ slot) (i : Nat) (hi : i < m) :
    Function.update lr slot w i = lr i :=
  Function.update_of_ne (by omega) _ _

/-- Filling a free register takes one from the free ones. -/
theorem freeLrs_fill (hslot : slot < n) (hfree : live (lr slot) = false) (virq : BitVec 32) :
    freeLrs n lr = freeLrs n (Function.update lr slot (lrWord virq)) + 1 := by
  induction n with
  | zero => exact absurd hslot (Nat.not_lt_zero _)
  | succ n ih =>
    rw [freeLrs_succ, freeLrs_succ]
    rcases Nat.lt_or_eq_of_le (Nat.lt_succ_iff.mp hslot) with hlt | rfl
    · rw [ih hlt, Function.update_of_ne (Nat.ne_of_gt hlt)]
      omega
    · rw [freeLrs_congr (update_below (Nat.le_refl _)), Function.update_self, live_lrWord, hfree]
      rfl

/-- Its interrupt joins the live ones. -/
theorem liveVirqs_fill (hslot : slot < n) (hfree : live (lr slot) = false) (virq : BitVec 32) :
    (liveVirqs n (Function.update lr slot (lrWord virq))).Perm (virq :: liveVirqs n lr) := by
  induction n with
  | zero => exact absurd hslot (Nat.not_lt_zero _)
  | succ n ih =>
    rw [liveVirqs_succ, liveVirqs_succ]
    rcases Nat.lt_or_eq_of_le (Nat.lt_succ_iff.mp hslot) with hlt | rfl
    · rw [Function.update_of_ne (Nat.ne_of_gt hlt)]
      exact (ih hlt).append_right _
    · have hold : lrVirq (lr slot) = none := by
        simp [lrVirq, hfree]
      have hnew : lrVirq (lrWord virq) = some virq := by
        simp [lrVirq, live_lrWord, vintid_lrWord]
      rw [liveVirqs_congr (update_below (Nat.le_refl _)), Function.update_self, hold, hnew]
      simp

end

/-- What flush does: the first interrupts of the queue go into the free registers. -/
structure Flushed (lrCount : Nat) (queue : List (BitVec 32)) (lr : Nat → BitVec 64)
    (queue' : List (BitVec 32)) (lr' : Nat → BitVec 64) : Prop where
  kept : queue' = queue.drop (freeLrs lrCount lr)
  filled : (liveVirqs lrCount lr').Perm (liveVirqs lrCount lr ++ queue.take (freeLrs lrCount lr))
  untouched : ∀ i, live (lr i) = true → lr' i = lr i
  full : queue' ≠ [] → ∀ i, i < lrCount → live (lr' i) = true

/-- The loop, from index `i` on: what was kept so far stays in front. -/
theorem flushLoop_spec (lrCount : Nat) {n i keep : Nat} (hkeep : keep ≤ i) (pend : Nat → BitVec 32)
    (lr : Nat → BitVec 64) :
    ∃ queue', (flushLoop lrCount n i keep pend lr).1.toList = firstN pend keep ++ queue' ∧
      Flushed lrCount (firstN (fun k => pend (i + k)) n) lr queue'
        (flushLoop lrCount n i keep pend lr).2 := by
  induction n generalizing i keep pend lr with
  | zero =>
    refine ⟨[], by simp [flushLoop, VirqQueue.toList], ?_⟩
    exact ⟨by simp [firstN], by simp [firstN, flushLoop], fun _ _ => rfl, fun h => absurd rfl h⟩
  | succ n ih =>
    have hshift : ∀ f : Nat → BitVec 32, (fun k => f (i + (k + 1))) = fun k => f (i + 1 + k) := by
      intro f
      funext k
      rw [Nat.add_right_comm, Nat.add_assoc]
    rw [firstN_cons, hshift, Nat.add_zero]
    cases hslot : freeSlot lrCount lr with
    | none =>
      -- no free register: the interrupt is kept, and so are all after it
      obtain ⟨queue', hq, hf⟩ := ih (Nat.succ_le_succ hkeep) (Function.update pend keep (pend i)) lr
      have hfree := freeLrs_eq_zero hslot
      have hrest : firstN (fun k => Function.update pend keep (pend i) (i + 1 + k)) n =
          firstN (fun k => pend (i + 1 + k)) n :=
        firstN_congr fun k _ => Function.update_of_ne (by omega) _ _
      rw [hrest] at hf
      have hkept := hf.kept
      have hfilled := hf.filled
      rw [hfree] at hkept hfilled
      simp only [flushLoop, hslot]
      refine ⟨pend i :: queue', ?_, ?_, ?_, hf.untouched, fun _ j hj => ?_⟩
      · rw [hq, firstN_succ, Function.update_self,
          firstN_congr fun k hk => Function.update_of_ne (Nat.ne_of_lt hk) _ _]
        simp
      · rw [hfree, hkept]
        rfl
      · rw [hfree]
        exact hfilled
      · have hlive := freeSlot_none hslot hj
        rw [hf.untouched j hlive, hlive]
    | some slot =>
      obtain ⟨hlt, hdead⟩ := freeSlot_some hslot
      obtain ⟨queue', hq, hf⟩ := ih (Nat.le_succ_of_le hkeep) pend
        (Function.update lr slot (lrWord (pend i)))
      have hfree := freeLrs_fill hlt hdead (pend i)
      simp only [flushLoop, hslot]
      refine ⟨queue', hq, ?_, ?_, fun j hj => ?_, hf.full⟩
      · rw [hf.kept, hfree, List.drop_succ_cons]
      · rw [hfree, List.take_succ_cons]
        refine hf.filled.trans (((liveVirqs_fill hlt hdead (pend i)).append_right _).trans ?_)
        exact List.perm_middle.symm
      · have hne : j ≠ slot := by
          rintro rfl
          rw [hdead] at hj
          cases hj
        have hsame : Function.update lr slot (lrWord (pend i)) j = lr j :=
          Function.update_of_ne hne _ _
        rw [hf.untouched j (by rw [hsame]; exact hj), hsame]

theorem gicVcpuFlushLr_spec (lrCount : Nat) (q : VirqQueue) (lr : Nat → BitVec 64) :
    Flushed lrCount q.toList lr (gicVcpuFlushLr lrCount q lr).1.toList
      (gicVcpuFlushLr lrCount q lr).2 := by
  obtain ⟨queue', hq, hf⟩ := flushLoop_spec lrCount (Nat.le_refl 0) q.pendingVirq lr
  rw [gicVcpuFlushLr, hq]
  simpa [firstN, VirqQueue.toList] using hf

/-- A list register keeps its word, or it was free and has one of the interrupts now. -/
theorem flushLoop_lr (lrCount : Nat) {n i keep : Nat} (hkeep : keep ≤ i) (pend : Nat → BitVec 32)
    (lr : Nat → BitVec 64) (j : Nat) :
    (flushLoop lrCount n i keep pend lr).2 j = lr j ∨
      live (lr j) = false ∧
        ∃ k < n, (flushLoop lrCount n i keep pend lr).2 j = lrWord (pend (i + k)) := by
  induction n generalizing i keep pend lr with
  | zero => exact .inl rfl
  | succ n ih =>
    have hshift : ∀ k, i + 1 + k = i + (k + 1) := by
      intro k
      rw [Nat.add_assoc, Nat.add_comm 1]
    cases hslot : freeSlot lrCount lr with
    | none =>
      simp only [flushLoop, hslot]
      rcases ih (Nat.succ_le_succ hkeep) (Function.update pend keep (pend i)) lr with
        hsame | ⟨hdead, k, hk, hnew⟩
      · exact .inl hsame
      · refine .inr ⟨hdead, k + 1, Nat.succ_lt_succ hk, ?_⟩
        rw [hnew, Function.update_of_ne (by omega), hshift]
    | some slot =>
      obtain ⟨_, hfree⟩ := freeSlot_some hslot
      simp only [flushLoop, hslot]
      rcases ih (Nat.le_succ_of_le hkeep) pend (Function.update lr slot (lrWord (pend i))) with
        hsame | ⟨hdead, k, hk, hnew⟩
      · by_cases hj : j = slot
        · subst hj
          rw [Function.update_self] at hsame
          exact .inr ⟨hfree, 0, Nat.succ_pos n, hsame⟩
        · rw [Function.update_of_ne hj] at hsame
          exact .inl hsame
      · by_cases hj : j = slot
        · subst hj
          rw [Function.update_self, live_lrWord] at hdead
          cases hdead
        · rw [Function.update_of_ne hj] at hdead
          refine .inr ⟨hdead, k + 1, Nat.succ_lt_succ hk, ?_⟩
          rw [hnew, hshift]

theorem gicVcpuFlushLr_lr (lrCount : Nat) (q : VirqQueue) (lr : Nat → BitVec 64) (j : Nat) :
    (gicVcpuFlushLr lrCount q lr).2 j = lr j ∨
      live (lr j) = false ∧ ∃ virq ∈ q.toList, (gicVcpuFlushLr lrCount q lr).2 j = lrWord virq := by
  rcases flushLoop_lr lrCount (Nat.le_refl 0) q.pendingVirq lr j with hsame | ⟨hdead, k, hk, hnew⟩
  · exact .inl hsame
  · rw [Nat.zero_add] at hnew
    exact .inr ⟨hdead, _, List.mem_map_of_mem (List.mem_range.mpr hk), hnew⟩

theorem freeSlot_congr {n : Nat} {lr lr' : Nat → BitVec 64} (h : ∀ i, i < n → lr i = lr' i) :
    freeSlot n lr = freeSlot n lr' :=
  List.find?_congr fun i hi => by rw [h i (List.mem_range.mp hi)]

/-- Only the implemented list registers matter. -/
theorem flushLoop_congr (lrCount : Nat) {n i keep : Nat} (pend : Nat → BitVec 32)
    {lr lr' : Nat → BitVec 64} (h : ∀ j, j < lrCount → lr j = lr' j) :
    ∀ j, j < lrCount → (flushLoop lrCount n i keep pend lr).2 j =
      (flushLoop lrCount n i keep pend lr').2 j := by
  induction n generalizing i keep pend lr lr' with
  | zero => exact h
  | succ n ih =>
    have hsame := freeSlot_congr h
    cases hslot : freeSlot lrCount lr with
    | none =>
      simp only [flushLoop, ← hsame, hslot]
      exact ih _ h
    | some slot =>
      simp only [flushLoop, ← hsame, hslot]
      refine ih _ fun j hj => ?_
      by_cases he : j = slot
      · rw [he, Function.update_self, Function.update_self]
      · rw [Function.update_of_ne he, Function.update_of_ne he, h j hj]

/-! ## Inject -/

theorem mem_toList {q : VirqQueue} {virq : BitVec 32} :
    virq ∈ q.toList ↔
      ((List.range q.pendingVirqCount).any fun i => q.pendingVirq i == virq) = true := by
  simp [VirqQueue.toList, firstN]

theorem length_toList (q : VirqQueue) : q.toList.length = q.pendingVirqCount := by
  simp [VirqQueue.toList, firstN]

/-- Inject appends an interrupt that is not queued yet, while there is room. -/
theorem gicVcpuInjectVirq_toList (q : VirqQueue) (virq : BitVec 32) :
    (gicVcpuInjectVirq q virq).toList =
      if q.toList.length < vcpuMaxPendingVirq ∧ virq ∉ q.toList then q.toList ++ [virq]
      else q.toList := by
  rw [length_toList]
  unfold gicVcpuInjectVirq
  split
  · next hfull => rw [if_neg fun h => absurd h.1 (Nat.not_lt.mpr hfull)]
  · next hroom =>
    split
    · next hin => rw [if_neg fun h => h.2 (mem_toList.mpr hin)]
    · next hout =>
      rw [if_pos ⟨Nat.not_le.mp hroom, fun h => hout (mem_toList.mp h)⟩]
      change firstN (Function.update q.pendingVirq q.pendingVirqCount virq) _ = _
      rw [firstN_succ, Function.update_self,
        firstN_congr fun i hi => Function.update_of_ne (Nat.ne_of_lt hi) _ _]
      rfl

/-! ## Runs -/

/-- One vCPU: its queue, the interface it is loaded on, its saved context. -/
structure VcpuIrq where
  queue : VirqQueue
  hw : IchRegs
  ctx : VgicContext

/-- The steps of the hypervisor and of the guest. -/
inductive IrqStep
  | inject (virq : BitVec 32)
  | flush
  | save
  | restore
  | acknowledge (i : Nat)
  | deactivate (i : Nat)

/-- The guest reads ICC_IAR1: a pending register becomes active. -/
def acknowledgeLr (w : BitVec 64) : BitVec 64 :=
  if w.getLsbD 62 && !w.getLsbD 63 then w ^^^ (ichLrPend ||| ichLrAct) else w

/-- The guest deactivates the interrupt of a register. -/
def deactivateLr (w : BitVec 64) : BitVec 64 := w &&& ~~~ichLrAct

def VcpuIrq.setLr (s : VcpuIrq) (lr : Nat → BitVec 64) : VcpuIrq :=
  { s with hw := { s.hw with lr := lr } }

def VcpuIrq.step (lrCount : Nat) (s : VcpuIrq) : IrqStep → VcpuIrq
  | .inject virq => { s with queue := gicVcpuInjectVirq s.queue virq }
  | .flush =>
    let r := gicVcpuFlushLr lrCount s.queue s.hw.lr
    { s.setLr r.2 with queue := r.1 }
  | .save => { s with ctx := gicVcpuSave lrCount s.hw s.ctx }
  | .restore => { s with hw := gicVcpuRestore lrCount s.ctx s.hw }
  | .acknowledge i => s.setLr (Function.update s.hw.lr i (acknowledgeLr (s.hw.lr i)))
  | .deactivate i => s.setLr (Function.update s.hw.lr i (deactivateLr (s.hw.lr i)))

/-- The state after a run. -/
def VcpuIrq.run (lrCount : Nat) (s : VcpuIrq) (steps : List IrqStep) : VcpuIrq :=
  steps.foldl (VcpuIrq.step lrCount) s

/-- A new task: nothing queued. -/
def VcpuIrq.new (hw : IchRegs) (ctx : VgicContext) : VcpuIrq := ⟨⟨fun _ => 0, 0⟩, hw, ctx⟩

/-! ## Conservation -/

/-- The queue stays in its array and holds no interrupt twice. -/
def QueueInv (q : VirqQueue) : Prop :=
  q.pendingVirqCount ≤ vcpuMaxPendingVirq ∧ q.toList.Nodup

/-- A flush from `s` moves a prefix of the queue into registers that were free, loses
and duplicates nothing, and leaves something queued only if all registers are in use. -/
structure Conserves (lrCount : Nat) (s : VcpuIrq) : Prop where
  moves_prefix : ∃ moved, s.queue.toList = moved ++ (s.step lrCount .flush).queue.toList ∧
    (liveVirqs lrCount (s.step lrCount .flush).hw.lr).Perm (liveVirqs lrCount s.hw.lr ++ moved)
  total : ((s.step lrCount .flush).queue.toList ++
      liveVirqs lrCount (s.step lrCount .flush).hw.lr).Perm
    (s.queue.toList ++ liveVirqs lrCount s.hw.lr)
  no_overwrite : ∀ i, live (s.hw.lr i) = true →
    (s.step lrCount .flush).hw.lr i = s.hw.lr i
  full : (s.step lrCount .flush).queue.toList ≠ [] →
    ∀ i, i < lrCount → live ((s.step lrCount .flush).hw.lr i) = true

theorem conserves (lrCount : Nat) (s : VcpuIrq) : Conserves lrCount s := by
  have hf := gicVcpuFlushLr_spec lrCount s.queue s.hw.lr
  refine ⟨⟨s.queue.toList.take (freeLrs lrCount s.hw.lr), ?_, hf.filled⟩, ?_, hf.untouched, hf.full⟩
  · change _ = _ ++ (gicVcpuFlushLr lrCount s.queue s.hw.lr).1.toList
    rw [hf.kept, List.take_append_drop]
  · refine (hf.filled.append_left _).trans ?_
    change ((gicVcpuFlushLr lrCount s.queue s.hw.lr).1.toList ++ _).Perm _
    rw [hf.kept]
    refine List.perm_append_comm.trans ?_
    rw [List.append_assoc, List.take_append_drop]
    exact List.perm_append_comm

theorem queueInv_step {lrCount : Nat} {s : VcpuIrq} (h : QueueInv s.queue) (st : IrqStep) :
    QueueInv (s.step lrCount st).queue := by
  cases st with
  | inject virq =>
    refine ⟨?_, ?_⟩
    · rw [← length_toList]
      change (gicVcpuInjectVirq s.queue virq).toList.length ≤ _
      rw [gicVcpuInjectVirq_toList]
      split
      · next hroom =>
        rw [List.length_append]
        exact hroom.1
      · rw [length_toList]
        exact h.1
    · change (gicVcpuInjectVirq s.queue virq).toList.Nodup
      rw [gicVcpuInjectVirq_toList]
      split
      · next hroom =>
        refine List.nodup_append.mpr ⟨h.2, List.nodup_singleton _, fun a ha b hb => ?_⟩
        rw [List.mem_singleton] at hb
        rintro rfl
        exact hroom.2 (hb ▸ ha)
      · exact h.2
  | flush =>
    obtain ⟨⟨moved, hsplit, -⟩, -, -, -⟩ := conserves lrCount s
    refine ⟨?_, ?_⟩
    · rw [← length_toList]
      have hlen := congrArg List.length hsplit
      rw [List.length_append, length_toList] at hlen
      have hle := h.1
      omega
    · have hnodup := h.2
      rw [hsplit] at hnodup
      exact (List.nodup_append.mp hnodup).2.1
  | save => exact h
  | restore => exact h
  | acknowledge i => exact h
  | deactivate i => exact h

theorem queueInv_run {lrCount : Nat} {s : VcpuIrq} (h : QueueInv s.queue) (steps : List IrqStep) :
    QueueInv (s.run lrCount steps).queue := by
  induction steps generalizing s with
  | nil => exact h
  | cons st steps ih => exact ih (queueInv_step h st)

/-- In every run the queue keeps its bound and its uniqueness, and the flush that may
come next conserves the interrupts. -/
theorem virq_queue_conserved (vtr : BitVec 64) (hw : IchRegs) (ctx : VgicContext)
    (steps : List IrqStep) :
    QueueInv ((VcpuIrq.new hw ctx).run (gicEmulLrCount vtr) steps).queue ∧
      Conserves (gicEmulLrCount vtr) ((VcpuIrq.new hw ctx).run (gicEmulLrCount vtr) steps) := by
  refine ⟨queueInv_run ?_ steps, conserves _ _⟩
  exact ⟨Nat.zero_le _, List.nodup_nil⟩

/-! ## One register for each interrupt -/

/-- No two registers in use hold the same interrupt. -/
def OneLrEach (lrCount : Nat) (lr : Nat → BitVec 64) : Prop :=
  ∀ i j, i < lrCount → j < lrCount → live (lr i) = true → live (lr j) = true →
    vintid (lr i) = vintid (lr j) → i = j

/-- None of the interrupts at the front of the queue that find a free register is in a
register already. -/
def NoneInService (lrCount : Nat) (s : VcpuIrq) : Prop :=
  ∀ virq ∈ s.queue.toList.take (freeLrs lrCount s.hw.lr), virq ∉ liveVirqs lrCount s.hw.lr

/-- `P` holds in every state of a run. -/
def Throughout (lrCount : Nat) (P : VcpuIrq → Prop) : VcpuIrq → List IrqStep → Prop
  | s, [] => P s
  | s, st :: steps => P s ∧ Throughout lrCount P (s.step lrCount st) steps

/-- Every flush of a run meets `NoneInService`. -/
def FlushesMeet (lrCount : Nat) : VcpuIrq → List IrqStep → Prop
  | _, [] => True
  | s, st :: steps =>
    (st = .flush → NoneInService lrCount s) ∧ FlushesMeet lrCount (s.step lrCount st) steps

theorem mem_lrVirq {w : BitVec 64} {virq : BitVec 32} :
    virq ∈ lrVirq w ↔ live w = true ∧ vintid w = virq := by
  cases h : live w <;> simp [lrVirq, h]

theorem nodup_liveVirqs (n : Nat) (lr : Nat → BitVec 64) :
    (liveVirqs n lr).Nodup ↔ OneLrEach n lr := by
  refine ⟨fun hnd i j hi hj hli hlj heq => ?_, fun hone => ?_⟩
  · have hpair := List.pairwise_filterMap.mp hnd
    have hlt : ∀ a b, a < b → b < n → live (lr a) = true → live (lr b) = true →
        vintid (lr a) ≠ vintid (lr b) := by
      intro a b hab hb hla hlb
      have hne := List.pairwise_iff_getElem.mp hpair a b (by simpa using Nat.lt_trans hab hb)
        (by simpa using hb) hab
      simp only [List.getElem_range] at hne
      exact hne _ (mem_lrVirq.mpr ⟨hla, rfl⟩) _ (mem_lrVirq.mpr ⟨hlb, rfl⟩)
    rcases Nat.lt_trichotomy i j with h | h | h
    · exact absurd heq (hlt i j h hj hli hlj)
    · exact h
    · exact absurd heq.symm (hlt j i h hi hlj hli)
  · refine List.pairwise_filterMap.mpr (List.Pairwise.imp_of_mem ?_ (List.nodup_range (n := n)))
    intro a b ha hb hab v hv w hw hvw
    obtain ⟨hla, hva⟩ := mem_lrVirq.mp hv
    obtain ⟨hlb, hvb⟩ := mem_lrVirq.mp hw
    exact hab (hone a b (List.mem_range.mp ha) (List.mem_range.mp hb) hla hlb
      (hva.trans (hvw.trans hvb.symm)))

/-- A change that frees registers or keeps what is in them. -/
theorem OneLrEach.weaken {n : Nat} {lr lr' : Nat → BitVec 64} (h : OneLrEach n lr)
    (hsub : ∀ i, i < n → live (lr' i) = true → live (lr i) = true ∧ vintid (lr' i) = vintid (lr i)) :
    OneLrEach n lr' := by
  intro i j hi hj hli hlj heq
  obtain ⟨hi1, hi2⟩ := hsub i hi hli
  obtain ⟨hj1, hj2⟩ := hsub j hj hlj
  exact h i j hi hj hi1 hj1 (hi2.symm.trans (heq.trans hj2))

theorem OneLrEach.update {n : Nat} {lr : Nat → BitVec 64} (h : OneLrEach n lr) (i : Nat)
    {w : BitVec 64} (hw : live w = true → live (lr i) = true ∧ vintid w = vintid (lr i)) :
    OneLrEach n (Function.update lr i w) := by
  refine h.weaken fun j _ hj => ?_
  by_cases hji : j = i
  · subst hji
    rw [Function.update_self] at hj ⊢
    exact hw hj
  · rw [Function.update_of_ne hji] at hj ⊢
    exact ⟨hj, rfl⟩

/-- Flipping bits 62 and 63 leaves the interrupt as it is. -/
theorem vintid_acknowledgeLr (w : BitVec 64) : vintid (acknowledgeLr w) = vintid w := by
  rw [acknowledgeLr]
  split
  · refine BitVec.eq_of_getLsbD_eq fun i hi => ?_
    have hmask : (ichLrPend ||| ichLrAct).getLsbD i = false := by
      revert hi i
      decide
    simp only [vintid, BitVec.truncate_eq_setWidth, BitVec.getLsbD_setWidth, BitVec.getLsbD_xor,
      hmask, Bool.xor_false]
  · rfl

theorem live_acknowledgeLr {w : BitVec 64} (h : live (acknowledgeLr w) = true) : live w = true := by
  rw [acknowledgeLr] at h
  split at h
  · next hpend =>
    rw [Bool.and_eq_true] at hpend
    rw [live_iff, hpend.1, Bool.true_or]
  · exact h

theorem vintid_deactivateLr (w : BitVec 64) : vintid (deactivateLr w) = vintid w := by
  refine BitVec.eq_of_getLsbD_eq fun i hi => ?_
  have hmask : (~~~ichLrAct).getLsbD i = true := by
    revert hi i
    decide
  simp only [vintid, deactivateLr, BitVec.truncate_eq_setWidth, BitVec.getLsbD_setWidth,
    BitVec.getLsbD_and, hmask, Bool.and_true]

theorem live_deactivateLr {w : BitVec 64} (h : live (deactivateLr w) = true) : live w = true := by
  rw [live_iff] at h ⊢
  simp only [deactivateLr, BitVec.getLsbD_and] at h
  rw [Bool.or_eq_true] at h ⊢
  rcases h with h | h
  · exact .inl (Bool.and_eq_true_iff.mp h).1
  · exact .inr (Bool.and_eq_true_iff.mp h).1

/-- What a run keeps: the bank and the saved bank hold no interrupt twice. -/
structure BankInv (lrCount : Nat) (s : VcpuIrq) : Prop where
  queue : QueueInv s.queue
  bank : OneLrEach lrCount s.hw.lr
  saved : s.ctx.initialized = true → s.ctx.lrCount = lrCount ∧ OneLrEach lrCount s.ctx.lr

/-- A flush keeps the bank right exactly when it meets the condition. -/
theorem flush_iff {lrCount : Nat} {s : VcpuIrq} (h : BankInv lrCount s) :
    OneLrEach lrCount (s.step lrCount .flush).hw.lr ↔ NoneInService lrCount s := by
  have hf := gicVcpuFlushLr_spec lrCount s.queue s.hw.lr
  rw [← nodup_liveVirqs]
  refine hf.filled.nodup_iff.trans ?_
  have htake := h.queue.2.sublist (List.take_sublist (freeLrs lrCount s.hw.lr) _)
  have hlive := (nodup_liveVirqs _ _).mpr h.bank
  rw [List.nodup_append]
  refine ⟨fun hall virq hv hin => hall.2.2 _ hin _ hv rfl, fun hnone => ⟨hlive, htake, ?_⟩⟩
  rintro a ha b hb rfl
  exact hnone a hb ha

theorem bankInv_step {lrCount : Nat} {s : VcpuIrq} (h : BankInv lrCount s) {st : IrqStep}
    (hst : st = .flush → NoneInService lrCount s) : BankInv lrCount (s.step lrCount st) := by
  refine ⟨queueInv_step h.queue st, ?_, ?_⟩
  · cases st with
    | inject virq => exact h.bank
    | flush => exact (flush_iff h).mpr (hst rfl)
    | save => exact h.bank
    | restore =>
      simp only [VcpuIrq.step, gicVcpuRestore]
      split
      · next hinit =>
        obtain ⟨hcount, hone⟩ := h.saved hinit
        refine hone.weaken fun i hi hlive => ?_
        simp only [copyFirst, hcount, Nat.lt_irrefl, if_false, hi, if_true] at hlive ⊢
        exact ⟨hlive, trivial⟩
      · intro i j hi _ hli _ _
        simp only [copyFirst, hi, if_true, live_zero] at hli
        cases hli
    | acknowledge i =>
      exact h.bank.update i fun hl => ⟨live_acknowledgeLr hl, vintid_acknowledgeLr _⟩
    | deactivate i =>
      exact h.bank.update i fun hl => ⟨live_deactivateLr hl, vintid_deactivateLr _⟩
  · cases st with
    | save =>
      refine fun _ => ⟨rfl, h.bank.weaken fun i hi hlive => ?_⟩
      simp only [VcpuIrq.step, gicVcpuSave, copyFirst, hi, if_true] at hlive ⊢
      exact ⟨hlive, trivial⟩
    | inject virq => exact h.saved
    | flush => exact h.saved
    | restore => exact h.saved
    | acknowledge i => exact h.saved
    | deactivate i => exact h.saved

/-- A new task on an initialised pCPU. -/
theorem bankInv_new (lrCount : Nat) (hw : IchRegs) {ctx : VgicContext}
    (hctx : ctx.initialized = false) :
    BankInv lrCount (VcpuIrq.new (gicVcpuInitPcpu lrCount hw) ctx) := by
  refine ⟨⟨Nat.zero_le _, List.nodup_nil⟩, ?_, fun h => absurd (hctx.symm.trans h) (by decide)⟩
  intro i j hi _ hli _ _
  simp only [VcpuIrq.new, gicVcpuInitPcpu, copyFirst, hi, if_true, live_zero] at hli
  cases hli

theorem throughout_iff {lrCount : Nat} {s : VcpuIrq} (h : BankInv lrCount s)
    (steps : List IrqStep) :
    Throughout lrCount (fun t => OneLrEach lrCount t.hw.lr) s steps ↔
      FlushesMeet lrCount s steps := by
  induction steps generalizing s with
  | nil => exact iff_of_true h.bank trivial
  | cons st steps ih =>
    refine ⟨fun hall => ?_, fun hall => ?_⟩
    · -- the state after the step is right, so a flush met its condition
      have hst : st = .flush → NoneInService lrCount s := by
        rintro rfl
        refine (flush_iff h).mp ?_
        have hrest := hall.2
        cases steps with
        | nil => exact hrest
        | cons _ _ => exact hrest.1
      exact ⟨hst, (ih (bankInv_step h hst)).mp hall.2⟩
    · exact ⟨h.bank, (ih (bankInv_step h hall.1)).mpr hall.2⟩

/-- In a run of a new vCPU no two list registers in use ever hold the same interrupt
exactly when no flush moves an interrupt that is still in a list register. -/
theorem one_lr_each_iff (vtr : BitVec 64) (hw : IchRegs) (ctx : VgicContext)
    (hctx : ctx.initialized = false) (steps : List IrqStep) :
    Throughout (gicEmulLrCount vtr) (fun s => OneLrEach (gicEmulLrCount vtr) s.hw.lr)
        (VcpuIrq.new (gicVcpuInitPcpu (gicEmulLrCount vtr) hw) ctx) steps ↔
      FlushesMeet (gicEmulLrCount vtr)
        (VcpuIrq.new (gicVcpuInitPcpu (gicEmulLrCount vtr) hw) ctx) steps :=
  throughout_iff (bankInv_new _ hw hctx) steps

/-- A cleared virtual interface. -/
def clearIch : IchRegs := ⟨0, 0, fun _ => 0, fun _ => 0, fun _ => 0⟩

/-- The context of a new vCPU. -/
def newVgicContext : VgicContext := ⟨0, 0, fun _ => 0, fun _ => 0, fun _ => 0, 0, false⟩

/-- The first flush of a new vCPU finds an empty bank. -/
theorem one_lr_each_first :
    Throughout (gicEmulLrCount 3) (fun s => OneLrEach (gicEmulLrCount 3) s.hw.lr)
      (VcpuIrq.new (gicVcpuInitPcpu (gicEmulLrCount 3) clearIch) newVgicContext)
      [.inject 27, .inject 28, .flush] := by
  refine (one_lr_each_iff 3 clearIch newVgicContext rfl _).mpr ?_
  refine ⟨fun h => (nomatch h), fun h => (nomatch h), fun _ virq _ => ?_, trivial⟩
  change virq ∉ liveVirqs _ (copyFirst _ _ _)
  rw [liveVirqs_clear]
  exact List.not_mem_nil

/-- The timer interrupt is acknowledged, fires again and gets a second register. -/
theorem two_lrs_one_virq :
    ¬ ∀ steps, Throughout 4 (fun s => OneLrEach 4 s.hw.lr)
      (VcpuIrq.new (gicVcpuInitPcpu 4 clearIch) newVgicContext) steps := by
  intro h
  have hlast := (h [.inject 27, .flush, .acknowledge 0, .inject 27, .flush]).2.2.2.2.2
  exact absurd (hlast 0 1 (by decide) (by decide) (by decide) (by decide) (by decide)) (by decide)

end HyperCore.Vgic
