import HyperCore.Sched.Psci

/-!
# Software generated interrupts

A guest's write of ICC_SGI1R traps; `vcpu_emulate_sysreg_write` decodes it and
`gic_vcpu_send_sgi` queues the interrupt on the tasks it names:

- IRM = 0: the vCPUs with affinity Aff3.Aff2.Aff1.(RS·16 + bit), for the bits of the
  target list, each looked up by `find_task_by_mpidr` among the running and the ready;
- IRM = 1: all vCPUs but the sender. The code walks the ready list only.

`SgiDelivered` is the delivery that the architecture asks for, and `sgi_delivered_iff`
says when the code performs it.
-/

namespace HyperCore.Sched

open LinkRing Vgic

/-! ## The code -/

/-- `struct gic_vcpu_sgi` -/
structure GicVcpuSgi where
  intid : BitVec 8
  aff1 : BitVec 8
  aff2 : BitVec 8
  aff3 : BitVec 8
  rs : BitVec 8
  targetList : BitVec 32
  irm : Bool

/-- The decoding of ICC_SGI1R in `vcpu_emulate_sysreg_write`. -/
def decodeSgi1r (data : BitVec 64) : GicVcpuSgi where
  intid := ((data >>> 24) &&& 0xf).truncate 8
  aff1 := ((data >>> 16) &&& 0xff).truncate 8
  aff2 := ((data >>> 32) &&& 0xff).truncate 8
  aff3 := ((data >>> 48) &&& 0xff).truncate 8
  rs := ((data >>> 44) &&& 0xf).truncate 8
  targetList := (data &&& 0xffff).truncate 32
  irm := (data >>> 40) &&& 0x1 != 0

/-- `gic_emul_sgi_target_mpidr` -/
def gicEmulSgiTargetMpidr (sgi : GicVcpuSgi) (aff0 : BitVec 32) : BitVec 64 :=
  sgi.aff3.zeroExtend 64 <<< 32 ||| sgi.aff2.zeroExtend 64 <<< 16 |||
    sgi.aff1.zeroExtend 64 <<< 8 ||| aff0.zeroExtend 64

/-- `find_task_by_mpidr` -/
def findTaskByMpidr (s : System) (mpidr : BitVec 64) : Option (Option TaskId) :=
  match (List.finRange 4).find? (s.testRunning (hasAffinity mpidr)) with
  | some c => some (s.gRunning c)
  | none => s.scanReady (hasAffinity mpidr)

/-- `gic_vcpu_inject_virq` for a task. -/
def Guest.inject (g : Guest) (t : TaskId) (virq : BitVec 32) : Guest :=
  { g with queue := Function.update g.queue t (gicVcpuInjectVirq (g.queue t) virq) }

/-- `gic_emul_send_sgi_to_task` -/
def gicEmulSendSgiToTask (g : Guest) (target source : Option TaskId) (virq : BitVec 32) : Guest :=
  match target with
  | none => g
  | some t => if target = source then g else g.inject t virq

/-- One round of the loop over the target list. -/
def sendSgiBit (sgi : GicVcpuSgi) (virq : BitVec 32) (g : Guest) (bit : Nat) : Option Guest :=
  if sgi.targetList.getLsbD bit then do
    let aff0 := sgi.rs.zeroExtend 32 * 16 + BitVec.ofNat 32 bit
    match ← findTaskByMpidr g.sys (gicEmulSgiTargetMpidr sgi aff0) with
    | none => pure g
    | some t => pure (g.inject t virq)
  else pure g

/-- `gic_vcpu_send_sgi` on pCPU `c`. -/
def gicVcpuSendSgi (g : Guest) (c : Cpu) (sgi : GicVcpuSgi) : Option Guest :=
  let source := g.sys.currentTask c
  let virq := sgi.intid.zeroExtend 32
  if sgi.irm then do
    let g := gicEmulSendSgiToTask g source source virq
    let nodes ← walk g.sys.links (.head .ready) (g.sys.inserts + 1)
    pure (nodes.foldl
      (fun g node =>
        match node with
        | .task t => gicEmulSendSgiToTask g (some t) source virq
        | .head _ => g) g)
  else (List.range 16).foldlM (sendSgiBit sgi virq) g

/-- A write of ICC_SGI1R by the guest that runs on pCPU `c`. -/
def writeSgi1r (g : Guest) (c : Cpu) (data : BitVec 64) : Option Guest :=
  gicVcpuSendSgi g c (decodeSgi1r data)

/-! ## What the architecture asks for -/

/-- ICC_SGI1R.INTID -/
def sgiIntid (data : BitVec 64) : BitVec 32 := (data.extractLsb' 24 4).zeroExtend 32

/-- The affinity `mpidr` is named by the target list. -/
def ListNames (data mpidr : BitVec 64) : Prop :=
  ∃ bit < 16, data.getLsbD bit = true ∧
    (mpidr.extractLsb' 0 8).toNat = (data.extractLsb' 44 4).toNat * 16 + bit ∧
    mpidr.extractLsb' 8 8 = data.extractLsb' 16 8 ∧
    mpidr.extractLsb' 16 8 = data.extractLsb' 32 8 ∧
    mpidr.extractLsb' 32 8 = data.extractLsb' 48 8

/-- The live tasks that a write on pCPU `c` names; bit 40 is IRM. -/
def SgiNames (g : Guest) (c : Cpu) (data : BitVec 64) (t : TaskId) : Prop :=
  ∃ x, g.sys.task t = some x ∧
    if data.getLsbD 40 then g.sys.currentTask c ≠ some t else ListNames data x.mpidr

/-- The SGI is in the queue of each named task with room, appended once unless it was
there already, and no other queue changes. -/
def SgiDelivered (g : Guest) (c : Cpu) (data : BitVec 64) (g' : Guest) : Prop :=
  g'.sys = g.sys ∧ ∀ t,
    (SgiNames g c data t → (g.queue t).pendingVirqCount < vcpuMaxPendingVirq →
      (g'.queue t).toList =
        if sgiIntid data ∈ (g.queue t).toList then (g.queue t).toList
        else (g.queue t).toList ++ [sgiIntid data]) ∧
    (¬ SgiNames g c data t → g'.queue t = g.queue t)

/-! ## Injecting into several queues -/

section

variable {queue : TaskId → VirqQueue} {virq : BitVec 32} {t : TaskId}

/-- An interrupt that is queued already, or finds no room. -/
theorem inject_same {q : VirqQueue}
    (h : virq ∈ q.toList ∨ vcpuMaxPendingVirq ≤ q.pendingVirqCount) :
    gicVcpuInjectVirq q virq = q := by
  unfold gicVcpuInjectVirq
  by_cases hfull : vcpuMaxPendingVirq ≤ q.pendingVirqCount
  · rw [if_pos hfull]
  · rw [if_neg hfull, if_pos (mem_toList.mp (h.resolve_right hfull))]

/-- Queueing an interrupt again does nothing. -/
theorem inject_idem (q : VirqQueue) (virq : BitVec 32) :
    gicVcpuInjectVirq (gicVcpuInjectVirq q virq) virq = gicVcpuInjectVirq q virq := by
  by_cases h : virq ∈ q.toList ∨ vcpuMaxPendingVirq ≤ q.pendingVirqCount
  · rw [inject_same h, inject_same h]
  · rw [not_or, Nat.not_le] at h
    refine inject_same (.inl ?_)
    rw [gicVcpuInjectVirq_toList, length_toList, if_pos h.symm]
    exact List.mem_append_right _ List.mem_cons_self

/-- The queues after injecting into each task of a list. -/
def injectAll (virq : BitVec 32) (queue : TaskId → VirqQueue) (ts : List TaskId) :
    TaskId → VirqQueue :=
  ts.foldl (fun queue t => Function.update queue t (gicVcpuInjectVirq (queue t) virq)) queue

theorem injectAll_apply (ts : List TaskId) :
    injectAll virq queue ts t =
      if t ∈ ts then gicVcpuInjectVirq (queue t) virq else queue t := by
  induction ts generalizing queue with
  | nil => rfl
  | cons u ts ih =>
    rw [injectAll, List.foldl_cons]
    refine ih.trans ?_
    by_cases hu : t = u
    · subst hu
      simp only [Function.update_self, inject_idem, List.mem_cons, true_or, if_true, ite_self]
    · simp only [Function.update_of_ne hu, List.mem_cons, hu, false_or]

end

/-! ## The fields of the affinity -/

/-- The fields of an affinity, at their bit positions. -/
def affinityFields : List Nat := [0, 8, 16, 32]

theorem mask_bit (i : Nat) :
    (0xff00ffffff : BitVec 64).getLsbD i = decide (i < 24 ∨ 32 ≤ i ∧ i < 40) := by
  by_cases hi : i < 64
  · revert hi i
    decide
  · rw [BitVec.getLsbD_of_ge _ _ (Nat.not_lt.mp hi)]
    symm
    rw [decide_eq_false_iff_not]
    omega

/-- Two affinities are equal when their four fields are. -/
theorem affinity_eq_iff (m m' : BitVec 64) :
    psciMpidrAffinity m = psciMpidrAffinity m' ↔
      ∀ k ∈ affinityFields, m.extractLsb' k 8 = m'.extractLsb' k 8 := by
  constructor
  · intro he k hk
    refine BitVec.eq_of_getLsbD_eq fun i hi => ?_
    have hmask : (0xff00ffffff : BitVec 64).getLsbD (k + i) = true := by
      simp only [affinityFields, List.mem_cons, List.not_mem_nil, or_false] at hk
      rw [mask_bit, decide_eq_true_eq]
      omega
    have hbit := congrArg (BitVec.getLsbD · (k + i)) he
    simp only [psciMpidrAffinity, BitVec.getLsbD_and, hmask, Bool.and_true] at hbit
    simp only [BitVec.getLsbD_extractLsb', hi, decide_true, Bool.true_and, hbit]
  · intro hall
    refine BitVec.eq_of_getLsbD_eq fun i hi => ?_
    simp only [psciMpidrAffinity, BitVec.getLsbD_and]
    by_cases hmask : i < 24 ∨ 32 ≤ i ∧ i < 40
    · -- the field that bit `i` belongs to
      obtain ⟨k, hk, hki, hik⟩ : ∃ k ∈ affinityFields, k ≤ i ∧ i < k + 8 := by
        simp only [affinityFields, List.mem_cons, List.not_mem_nil, or_false, exists_eq_or_imp,
          exists_eq_left]
        omega
      have hbit := congrArg (BitVec.getLsbD · (i - k)) (hall k hk)
      have hlt : i - k < 8 := by omega
      simp only [BitVec.getLsbD_extractLsb', hlt, decide_true, Bool.true_and,
        Nat.add_sub_cancel' hki] at hbit
      rw [hbit]
    · rw [mask_bit, decide_eq_false hmask, Bool.and_false, Bool.and_false]

/-- A byte moved to bit `k`. -/
theorem byte_shift_bit (a : BitVec 8) {k : Nat} (hk : k ≤ 32) (i : Nat) :
    (a.zeroExtend 64 <<< k).getLsbD i = (decide (k ≤ i) && a.getLsbD (i - k)) := by
  by_cases hi : i < 64
  · by_cases hki : k ≤ i
    · simp [hi, hki, Nat.not_lt.mpr hki]
    · simp [hki, Nat.lt_of_not_le hki]
  · have hout : a.getLsbD (i - k) = false := BitVec.getLsbD_of_ge _ _ (by omega)
    simp [hi, hout]

/-- A byte at bit `j` is the field there and leaves the other fields zero. -/
theorem byte_shift_field (a : BitVec 8) {j k : Nat} (hj : j ≤ 32)
    (hjk : j = k ∨ j + 8 ≤ k ∨ k + 8 ≤ j) :
    (a.zeroExtend 64 <<< j).extractLsb' k 8 = if j = k then a else 0 := by
  refine BitVec.eq_of_getLsbD_eq fun i hi => ?_
  rw [BitVec.getLsbD_extractLsb', decide_eq_true hi, Bool.true_and, byte_shift_bit a hj]
  by_cases he : j = k
  · subst he
    rw [if_pos rfl, decide_eq_true (Nat.le_add_right j i), Nat.add_sub_cancel_left, Bool.true_and]
  · rw [if_neg he]
    change _ = (0#8).getLsbD i
    rw [BitVec.getLsbD_zero]
    by_cases hle : j ≤ k + i
    · rw [BitVec.getLsbD_of_ge _ _ (by omega), Bool.and_false]
    · rw [decide_eq_false hle, Bool.false_and]

/-- The fields of the mpidr that a target bit stands for. -/
theorem targetMpidr_fields (sgi : GicVcpuSgi) {aff0 : BitVec 32} (h : aff0.toNat < 256) :
    (gicEmulSgiTargetMpidr sgi aff0).extractLsb' 0 8 = aff0.truncate 8 ∧
    (gicEmulSgiTargetMpidr sgi aff0).extractLsb' 8 8 = sgi.aff1 ∧
    (gicEmulSgiTargetMpidr sgi aff0).extractLsb' 16 8 = sgi.aff2 ∧
    (gicEmulSgiTargetMpidr sgi aff0).extractLsb' 32 8 = sgi.aff3 := by
  have haff0 : aff0.zeroExtend 64 = (aff0.truncate 8).zeroExtend 64 <<< 0 := by
    refine BitVec.eq_of_toNat_eq ?_
    simp [Nat.mod_eq_of_lt h]
  have hfield : ∀ k ∈ affinityFields, (gicEmulSgiTargetMpidr sgi aff0).extractLsb' k 8 =
      (if 32 = k then sgi.aff3 else 0) ||| (if 16 = k then sgi.aff2 else 0) |||
        (if 8 = k then sgi.aff1 else 0) ||| (if 0 = k then aff0.truncate 8 else 0) := by
    intro k hk
    simp only [affinityFields, List.mem_cons, List.not_mem_nil, or_false] at hk
    rw [gicEmulSgiTargetMpidr, haff0, BitVec.extractLsb'_or, BitVec.extractLsb'_or,
      BitVec.extractLsb'_or, byte_shift_field _ (by decide) (by omega),
      byte_shift_field _ (by decide) (by omega), byte_shift_field _ (by decide) (by omega),
      byte_shift_field _ (by decide) (by omega)]
  refine ⟨?_, ?_, ?_, ?_⟩
  · rw [hfield 0 (by decide)]
    simp
  · rw [hfield 8 (by decide)]
    simp
  · rw [hfield 16 (by decide)]
    simp
  · rw [hfield 32 (by decide)]
    simp

/-- A field of `n` bits, masked and truncated as the decoder does it. -/
theorem decode_field {n : Nat} {mask : BitVec 64} (data : BitVec 64) (k : Nat)
    (hmask : ∀ i < 8, mask.getLsbD i = decide (i < n)) :
    ((data >>> k) &&& mask).truncate 8 = (data.extractLsb' k n).zeroExtend 8 := by
  refine BitVec.eq_of_getLsbD_eq fun i hi => ?_
  simp only [BitVec.truncate_eq_setWidth, BitVec.getLsbD_setWidth, BitVec.getLsbD_and,
    BitVec.getLsbD_ushiftRight, BitVec.getLsbD_extractLsb', hmask i hi, hi, decide_true,
    Bool.true_and, Bool.and_comm]

theorem decode_byte (data : BitVec 64) (k : Nat) :
    ((data >>> k) &&& 0xff).truncate 8 = data.extractLsb' k 8 := by
  rw [decode_field data k (by decide : ∀ i < 8, (0xff : BitVec 64).getLsbD i = decide (i < 8))]
  exact BitVec.setWidth_eq _

theorem decode_nibble (data : BitVec 64) (k : Nat) :
    ((data >>> k) &&& 0xf).truncate 8 = (data.extractLsb' k 4).zeroExtend 8 :=
  decode_field data k (by decide)

theorem decode_targetList (data : BitVec 64) {bit : Nat} (hbit : bit < 16) :
    (decodeSgi1r data).targetList.getLsbD bit = data.getLsbD bit := by
  have hmask : (0xffff : BitVec 64).getLsbD bit = true := by
    revert hbit bit
    decide
  have h32 : bit < 32 := by omega
  simp only [decodeSgi1r, BitVec.truncate_eq_setWidth, BitVec.getLsbD_setWidth,
    BitVec.getLsbD_and, hmask, Bool.and_true, h32, decide_true, Bool.true_and]

theorem decode_irm (data : BitVec 64) : (decodeSgi1r data).irm = data.getLsbD 40 := by
  have hbit : (data >>> 40) &&& 0x1 = BitVec.setWidth 64 (BitVec.ofBool (data.getLsbD 40)) := by
    refine BitVec.eq_of_getLsbD_eq fun i hi => ?_
    have hmask : (0x1 : BitVec 64).getLsbD i = decide (i = 0) := by
      revert hi i
      decide
    rw [BitVec.getLsbD_and, BitVec.getLsbD_ushiftRight, hmask]
    by_cases h0 : i = 0
    · subst h0
      simp
    · simp [h0]
  have hirm : (decodeSgi1r data).irm =
      (BitVec.setWidth 64 (BitVec.ofBool (data.getLsbD 40)) != 0) := by
    rw [← hbit]
    rfl
  rw [hirm]
  cases data.getLsbD 40 <;> decide

theorem decode_intid (data : BitVec 64) :
    (decodeSgi1r data).intid.zeroExtend 32 = sgiIntid data := by
  change (((data >>> 24) &&& 0xf).truncate 8).zeroExtend 32 = _
  rw [decode_nibble, sgiIntid]
  refine BitVec.eq_of_toNat_eq ?_
  simp

/-- Aff0 of a target bit. -/
theorem decode_aff0 (data : BitVec 64) {bit : Nat} (hbit : bit < 16) :
    ((decodeSgi1r data).rs.zeroExtend 32 * 16 + BitVec.ofNat 32 bit).toNat =
      (data.extractLsb' 44 4).toNat * 16 + bit := by
  have hrs : (decodeSgi1r data).rs = (data.extractLsb' 44 4).zeroExtend 8 := decode_nibble data 44
  have hlt : (data.extractLsb' 44 4).toNat < 16 := (data.extractLsb' 44 4).isLt
  have h16 : (16 : BitVec 32).toNat = 16 := rfl
  rw [hrs]
  simp only [BitVec.toNat_add, BitVec.toNat_mul, BitVec.toNat_setWidth, BitVec.toNat_ofNat, h16]
  omega

/-- The lookup of a target bit asks for the affinity that the architecture names. -/
theorem target_affinity_iff (data mpidr : BitVec 64) {bit : Nat} (hbit : bit < 16) :
    psciMpidrAffinity mpidr = psciMpidrAffinity (gicEmulSgiTargetMpidr (decodeSgi1r data)
        ((decodeSgi1r data).rs.zeroExtend 32 * 16 + BitVec.ofNat 32 bit)) ↔
      (mpidr.extractLsb' 0 8).toNat = (data.extractLsb' 44 4).toNat * 16 + bit ∧
      mpidr.extractLsb' 8 8 = data.extractLsb' 16 8 ∧
      mpidr.extractLsb' 16 8 = data.extractLsb' 32 8 ∧
      mpidr.extractLsb' 32 8 = data.extractLsb' 48 8 := by
  have haff0 := decode_aff0 data hbit
  have hrs : (data.extractLsb' 44 4).toNat < 16 := (data.extractLsb' 44 4).isLt
  have hlt : ((decodeSgi1r data).rs.zeroExtend 32 * 16 + BitVec.ofNat 32 bit).toNat < 256 := by
    omega
  obtain ⟨h0, h1, h2, h3⟩ := targetMpidr_fields (decodeSgi1r data) hlt
  have hlow : ∀ m : BitVec 8, m = BitVec.truncate 8 ((decodeSgi1r data).rs.zeroExtend 32 * 16 +
      BitVec.ofNat 32 bit) ↔ m.toNat = (data.extractLsb' 44 4).toNat * 16 + bit := by
    intro m
    rw [← BitVec.toNat_inj, BitVec.truncate_eq_setWidth, BitVec.toNat_setWidth, haff0,
      Nat.mod_eq_of_lt (haff0 ▸ hlt)]
  rw [affinity_eq_iff]
  simp only [affinityFields, List.forall_mem_cons, h0, h1, h2, h3, hlow, List.not_mem_nil,
    false_imp_iff, implies_true, and_true]
  rw [show (decodeSgi1r data).aff1 = data.extractLsb' 16 8 from decode_byte data 16,
    show (decodeSgi1r data).aff2 = data.extractLsb' 32 8 from decode_byte data 32,
    show (decodeSgi1r data).aff3 = data.extractLsb' 48 8 from decode_byte data 48]

/-! ## Delivery -/

section

variable {g : Guest} {q : ListHead → List TaskId} {c : Cpu}

/-- `find_task_by_mpidr` finds the one task with the affinity. -/
theorem findTaskByMpidr_spec (hg : g.Settled q) (mpidr : BitVec 64) :
    ∃ r, findTaskByMpidr g.sys mpidr = some r ∧ ∀ t, r = some t ↔
      ∃ x, g.sys.task t = some x ∧ psciMpidrAffinity x.mpidr = psciMpidrAffinity mpidr := by
  have hunique : ∀ {t u x y}, g.sys.task t = some x → g.sys.task u = some y →
      psciMpidrAffinity x.mpidr = psciMpidrAffinity mpidr →
      psciMpidrAffinity y.mpidr = psciMpidrAffinity mpidr → t = u := by
    intro t u x y hx hy hxm hym
    refine hg.distinct t u x y hx hy ?_
    rw [← hg.masked t x hx, ← hg.masked u y hy, hxm, hym]
  obtain ⟨r, hr, hall⟩ := hg.holds.findTask_spec hg.noWait (f := hasAffinity mpidr)
    fun hx hy hxm hym => hunique hx hy (hasAffinity_iff.mp hxm) (hasAffinity_iff.mp hym)
  refine ⟨r, hr, fun t => (hall t).trans (exists_congr fun x => and_congr_right fun _ => ?_)⟩
  exact hasAffinity_iff

/-- Injecting a list of tasks one by one. -/
theorem foldl_inject (virq : BitVec 32) (ts : List TaskId) :
    ts.foldl (fun g t => Guest.inject g t virq) g =
      { g with queue := injectAll virq g.queue ts } := by
  induction ts generalizing g with
  | nil => rfl
  | cons t ts ih =>
    rw [List.foldl_cons, ih]
    rfl

/-- The walk of IRM = 1 reaches the ready tasks. -/
theorem gicVcpuSendSgi_irm (hg : g.Settled q) {sgi : GicVcpuSgi} (hirm : sgi.irm = true)
    {t : TaskId} (hc : g.sys.currentTask c = some t) :
    gicVcpuSendSgi g c sgi =
      some { g with queue := injectAll (sgi.intid.zeroExtend 32) g.queue (q .ready) } := by
  have hroom : ((q .ready).map Node.task).length < g.sys.inserts + 1 := by
    rw [List.length_map]
    exact Nat.lt_succ_of_le (hg.holds.lists.room .ready)
  have hself : gicEmulSendSgiToTask g (some t) (some t) (sgi.intid.zeroExtend 32) = g := if_pos rfl
  simp only [gicVcpuSendSgi, hirm, if_true, hc, hself, (hg.holds.lists.ring .ready).walk_eq hroom,
    Option.bind_eq_bind, Option.bind_some, Option.pure_def, List.foldl_map, ← foldl_inject]
  congr 1
  refine List.foldl_ext _ _ g fun g' u hu => ?_
  refine if_neg fun he => hg.holds.placed.current_not_queued hc .ready ?_
  exact Option.some.inj he ▸ hu

/-- The task that a bit of the target list stands for. -/
def bitTarget (s : System) (sgi : GicVcpuSgi) (bit : Nat) : Option TaskId :=
  if sgi.targetList.getLsbD bit then
    (findTaskByMpidr s (gicEmulSgiTargetMpidr sgi
      (sgi.rs.zeroExtend 32 * 16 + BitVec.ofNat 32 bit))).join
  else none

/-- The loop over the target list. -/
theorem foldlM_sendSgiBit (hg : g.Settled q) (sgi : GicVcpuSgi) (virq : BitVec 32)
    (bits : List Nat) :
    bits.foldlM (sendSgiBit sgi virq) g =
      some { g with queue := injectAll virq g.queue (bits.filterMap (bitTarget g.sys sgi)) } := by
  induction bits generalizing g with
  | nil => rfl
  | cons bit bits ih =>
    obtain ⟨r, hfind, _⟩ := findTaskByMpidr_spec hg (gicEmulSgiTargetMpidr sgi
      (sgi.rs.zeroExtend 32 * 16 + BitVec.ofNat 32 bit))
    rw [List.foldlM_cons]
    by_cases hset : sgi.targetList.getLsbD bit = true
    · cases r with
      | none =>
        have hnone : bitTarget g.sys sgi bit = none := by
          simp only [bitTarget, hset, if_true, hfind, Option.join_some]
        simp only [sendSgiBit, hset, if_true, hfind, Option.bind_eq_bind, Option.bind_some,
          Option.pure_def, List.filterMap_cons_none hnone]
        exact ih hg
      | some t =>
        have hsome : bitTarget g.sys sgi bit = some t := by
          simp only [bitTarget, hset, if_true, hfind, Option.join_some]
        simp only [sendSgiBit, hset, if_true, hfind, Option.bind_eq_bind, Option.bind_some,
          Option.pure_def, List.filterMap_cons_some hsome]
        exact ih ⟨hg.holds, hg.noWait, hg.masked, hg.distinct⟩
    · have hnone : bitTarget g.sys sgi bit = none := if_neg hset
      simp only [sendSgiBit, hset, if_false, Option.bind_eq_bind, Option.bind_some,
        Option.pure_def, List.filterMap_cons_none hnone, Bool.false_eq_true]
      exact ih hg

/-- Injecting into named tasks is the delivery asked for when the named tasks left out
need nothing. -/
theorem sgiDelivered_iff_of_subset {data : BitVec 64} {ts : List TaskId}
    (hsub : ∀ t ∈ ts, SgiNames g c data t) :
    SgiDelivered g c data { g with queue := injectAll (sgiIntid data) g.queue ts } ↔
      ∀ t, SgiNames g c data t → t ∉ ts →
        vcpuMaxPendingVirq ≤ (g.queue t).pendingVirqCount ∨ sgiIntid data ∈ (g.queue t).toList := by
  constructor
  · intro hdel t hname hout
    by_cases hroom : (g.queue t).pendingVirqCount < vcpuMaxPendingVirq
    · refine .inr ?_
      have hlist := (hdel.2 t).1 hname hroom
      simp only [injectAll_apply, if_neg hout] at hlist
      by_contra hin
      rw [if_neg hin] at hlist
      exact List.cons_ne_nil _ _ (List.self_eq_append_right.mp hlist)
    · exact .inl (Nat.not_lt.mp hroom)
  · intro hrest
    refine ⟨rfl, fun t => ⟨fun hname hroom => ?_, fun hname => ?_⟩⟩
    · simp only [injectAll_apply]
      by_cases hin : t ∈ ts
      · rw [if_pos hin, gicVcpuInjectVirq_toList, length_toList]
        by_cases hqueued : sgiIntid data ∈ (g.queue t).toList
        · rw [if_neg fun h => h.2 hqueued, if_pos hqueued]
        · rw [if_pos ⟨hroom, hqueued⟩, if_neg hqueued]
      · rcases hrest t hname hin with hfull | hqueued
        · exact absurd hroom (Nat.not_lt.mpr hfull)
        · rw [if_neg hin, if_pos hqueued]
    · simp only [injectAll_apply]
      exact if_neg fun hin => hname (hsub t hin)

/-- The targets of the list are the tasks it names. -/
theorem mem_listTargets (hg : g.Settled q) (data : BitVec 64) (t : TaskId) :
    t ∈ (List.range 16).filterMap (bitTarget g.sys (decodeSgi1r data)) ↔
      ∃ x, g.sys.task t = some x ∧ ListNames data x.mpidr := by
  rw [List.mem_filterMap]
  constructor
  · rintro ⟨bit, hbit, htarget⟩
    rw [List.mem_range] at hbit
    unfold bitTarget at htarget
    by_cases hset : (decodeSgi1r data).targetList.getLsbD bit = true
    · obtain ⟨r, hfind, hr⟩ := findTaskByMpidr_spec hg (gicEmulSgiTargetMpidr (decodeSgi1r data)
        ((decodeSgi1r data).rs.zeroExtend 32 * 16 + BitVec.ofNat 32 bit))
      rw [if_pos hset, hfind, Option.join_some] at htarget
      obtain ⟨x, hx, hm⟩ := (hr t).mp htarget
      rw [decode_targetList data hbit] at hset
      exact ⟨x, hx, bit, hbit, hset, (target_affinity_iff data x.mpidr hbit).mp hm⟩
    · rw [if_neg hset] at htarget
      cases htarget
  · rintro ⟨x, hx, bit, hbit, hset, hfields⟩
    refine ⟨bit, List.mem_range.mpr hbit, ?_⟩
    obtain ⟨r, hfind, hr⟩ := findTaskByMpidr_spec hg (gicEmulSgiTargetMpidr (decodeSgi1r data)
      ((decodeSgi1r data).rs.zeroExtend 32 * 16 + BitVec.ofNat 32 bit))
    rw [← decode_targetList data hbit] at hset
    rw [bitTarget, if_pos hset, hfind, Option.join_some]
    exact (hr t).mpr ⟨x, hx, (target_affinity_iff data x.mpidr hbit).mpr hfields⟩

/-- With IRM = 0 the delivery is as asked for. -/
theorem sgi_list_delivered (hg : g.Settled q) {data : BitVec 64} (hirm : data.getLsbD 40 = false) :
    ∃ g', writeSgi1r g c data = some g' ∧ SgiDelivered g c data g' := by
  have hnames : ∀ t, SgiNames g c data t ↔ ∃ x, g.sys.task t = some x ∧ ListNames data x.mpidr := by
    intro t
    simp only [SgiNames, hirm, Bool.false_eq_true, if_false]
  have hrun : writeSgi1r g c data = some { g with
      queue := injectAll (sgiIntid data) g.queue
        ((List.range 16).filterMap (bitTarget g.sys (decodeSgi1r data))) } := by
    rw [writeSgi1r, gicVcpuSendSgi, decode_irm, hirm, decode_intid]
    exact foldlM_sendSgiBit hg _ _ _
  refine ⟨_, hrun, (sgiDelivered_iff_of_subset fun t ht => ?_).mpr fun t hname hout => ?_⟩
  · exact (hnames t).mpr ((mem_listTargets hg data t).mp ht)
  · exact absurd ((mem_listTargets hg data t).mpr ((hnames t).mp hname)) hout

/-- With IRM = 1 it is when no other pCPU runs a vCPU that still needs the SGI. -/
theorem sgi_irm_delivered_iff (hg : g.Settled q) {data : BitVec 64}
    (hirm : data.getLsbD 40 = true) {t₀ : TaskId} (hc : g.sys.currentTask c = some t₀) :
    (∃ g', writeSgi1r g c data = some g' ∧ SgiDelivered g c data g') ↔
      ∀ c' t, c' ≠ c → g.sys.currentTask c' = some t →
        vcpuMaxPendingVirq ≤ (g.queue t).pendingVirqCount ∨
          sgiIntid data ∈ (g.queue t).toList := by
  have hrun : writeSgi1r g c data =
      some { g with queue := injectAll (sgiIntid data) g.queue (q .ready) } := by
    rw [writeSgi1r, gicVcpuSendSgi_irm hg ((decode_irm data).trans hirm) hc, decode_intid]
  have hnames : ∀ t, SgiNames g c data t ↔
      (∃ x, g.sys.task t = some x) ∧ g.sys.currentTask c ≠ some t := by
    intro t
    simp only [SgiNames, hirm, if_true, exists_and_right]
  have hsub : ∀ t ∈ q .ready, SgiNames g c data t := by
    intro t ht
    refine (hnames t).mpr ⟨Option.isSome_iff_exists.mp (hg.holds.lists.live t .ready ht), ?_⟩
    exact fun hcur => hg.holds.placed.current_not_queued hcur .ready ht
  have hex : (∃ g', writeSgi1r g c data = some g' ∧ SgiDelivered g c data g') ↔
      SgiDelivered g c data { g with queue := injectAll (sgiIntid data) g.queue (q .ready) } := by
    rw [hrun]
    exact ⟨fun ⟨g', he, hdel⟩ => Option.some.inj he ▸ hdel, fun hdel => ⟨_, rfl, hdel⟩⟩
  rw [hex, sgiDelivered_iff_of_subset hsub]
  constructor
  · intro hrest c' t hne hcur
    refine hrest t ((hnames t).mpr ⟨?_, fun hcur' => hne ?_⟩)
      (hg.holds.placed.current_not_queued hcur .ready)
    · exact Option.isSome_iff_exists.mp (hg.holds.placed.live t (.current c') hcur)
    · exact Place.current.inj (hg.holds.placed.alone t (.current c') (.current c) hcur hcur')
  · intro hrest t hname hout
    obtain ⟨⟨x, hx⟩, hcur⟩ := (hnames t).mp hname
    obtain ⟨c', hc'⟩ := (hg.ready_or_running hx).resolve_left hout
    rw [hg.holds.running] at hc'
    exact hrest c' t (fun he => hcur (he ▸ hc')) hc'

end

/-- In every sequential state, a write of ICC_SGI1R by the vCPU that runs on pCPU `c` is
delivered as the architecture asks exactly when IRM is 0, or each vCPU that runs on
another pCPU has a full queue or the SGI in its queue already. -/
theorem sgi_delivered_iff {cfg : GuestConfig} {g : Guest} (hg : GuestRun cfg g) {c : Cpu}
    {t₀ : TaskId} (hc : g.sys.currentTask c = some t₀) (data : BitVec 64) :
    (∃ g', writeSgi1r g c data = some g' ∧ SgiDelivered g c data g') ↔
      data.getLsbD 40 = false ∨
        ∀ c' t, c' ≠ c → g.sys.currentTask c' = some t →
          vcpuMaxPendingVirq ≤ (g.queue t).pendingVirqCount ∨
            sgiIntid data ∈ (g.queue t).toList := by
  obtain ⟨q, hset⟩ := hg.settled
  cases hirm : data.getLsbD 40 with
  | false => exact ⟨fun _ => .inl rfl, fun _ => sgi_list_delivered hset hirm⟩
  | true =>
    rw [sgi_irm_delivered_iff hset hirm hc]
    exact ⟨.inr, fun h => h.resolve_left (by decide)⟩

/-- The boot vCPU runs on pCPU 0, vCPU 1 was turned on and runs on pCPU 1. -/
theorem exists_two_running : ∃ g, GuestRun defaultVcpus g ∧ g.sys.currentTask 0 = some 1 ∧
    g.sys.currentTask 1 = some 2 ∧ (g.queue 2).pendingVirqCount = 0 := by
  have h₁ := @GuestRun.boot defaultVcpus (some 1) _ _ rfl
  have h₂ := @GuestRun.yield defaultVcpus _ 0 _ h₁ rfl
  have h₃ := @GuestRun.hvc defaultVcpus _ _ 0 (some 2) 0 0 (callFrame 0xc4000003 1) _ _ h₂
    (fun t ht => Option.mem_some_iff.mp ht ▸ rfl) rfl
  have h₄ := @GuestRun.yield defaultVcpus _ 1 _ h₃ rfl
  exact ⟨_, h₄, rfl, rfl, rfl⟩

/-- SGI 3 for affinity 1, which runs on the other pCPU. -/
theorem sgi_delivered_iff_list : ∃ g, GuestRun defaultVcpus g ∧ g.sys.currentTask 0 = some 1 ∧
    ∃ g', writeSgi1r g 0 0x3000002 = some g' ∧ SgiDelivered g 0 0x3000002 g' := by
  obtain ⟨g, hg, hc, _⟩ := exists_two_running
  exact ⟨g, hg, hc, (sgi_delivered_iff hg hc 0x3000002).mpr (.inl (by decide))⟩

/-- SGI 3 for all others: the vCPU on the other pCPU does not get it. -/
theorem broadcast_misses_running : ∃ g, GuestRun defaultVcpus g ∧ g.sys.currentTask 0 = some 1 ∧
    ¬ ∃ g', writeSgi1r g 0 0x10003000000 = some g' ∧ SgiDelivered g 0 0x10003000000 g' := by
  obtain ⟨g, hg, hc, hc₁, hempty⟩ := exists_two_running
  obtain ⟨q, hset⟩ := hg.settled
  refine ⟨g, hg, hc, fun hdel => ?_⟩
  rcases (sgi_irm_delivered_iff hset (by decide) hc).mp hdel 1 2 (by decide) hc₁ with hfull | hin
  · rw [hempty] at hfull
    exact absurd hfull (by decide)
  · rw [VirqQueue.toList, hempty] at hin
    cases hin

end HyperCore.Sched
