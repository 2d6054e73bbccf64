import HyperCore.Riscv64.Sbi

/-!
# Traps of the guest

`riscv_guest_fault_handle_exception` fans a guest trap out into the SBI, the stage-2 table, the
emulated devices, the skipped WFI and the redirection to the guest.

`guest_trap_contained`: it returns 0, with the frame changed in `sepc` and the registers that the
cause allows, unless the hypervisor itself faults: on the mask of a legacy call or an instruction
that it reads where nothing is mapped, or on a stage-2 table out of the direct map.
-/

namespace HyperCore.Riscv64

open ArchPage ReadLog TableMap PageAlloc

/-! ## The code -/

def excpIllegalInst : BitVec 64 := 2
def excpVsEcall : BitVec 64 := 0xa
def excpInstPageFault : BitVec 64 := 0xc
def excpLoadPageFault : BitVec 64 := 0xd
def excpStorePageFault : BitVec 64 := 0xf
def excpInstGuestPageFault : BitVec 64 := 0x14
def excpLoadGuestAccessFault : BitVec 64 := 0x15
def excpVirtInstructionFault : BitVec 64 := 0x16
def excpStoreGuestAmoAccessFault : BitVec 64 := 0x17

/-- `HSTATUS_SPV` -/
def hstatusSpv : BitVec 64 := 0x80

/-- The CSRs that the handler reads. -/
structure TrapCsrs where
  hstatus : BitVec 64
  htval : BitVec 64
  stval : BitVec 64
  htinst : BitVec 64
  vs : VsCsrs

/-- What the handler returns and leaves: the frame, the guest's CSRs and the hypervisor's tables. -/
structure TrapEnd where
  ret : Int
  regs : CpuUserRegs
  vs : VsCsrs
  host : Host

def guestPageFaultCause (cause : BitVec 64) : BitVec 64 :=
  if cause = excpInstGuestPageFault then excpInstPageFault
  else if cause = excpStoreGuestAmoAccessFault then excpStorePageFault
  else excpLoadPageFault

/-- The hypervisor around the handler: its image, the bytes of memory, the stage-2 root, the
regions of the vCPU, the guest's harts and firmware, and the emulated devices. -/
structure Hyper where
  layout : Layout
  mem : Nat → BitVec 8
  root : Nat
  regions : List MemRegion
  env : SbiEnv
  read : BitVec 64 → Nat → BitVec 64

section

variable (y : Hyper) (csrs : TrapCsrs) (regs : CpuUserRegs) (host : Host)

/-- `redirect_guest_exception`, which returns 0. -/
def redirectEnd (scause stval : BitVec 64) : TrapEnd :=
  let r := redirectGuestException csrs.vs regs scause stval
  ⟨0, r.2, r.1, host⟩

/-- `handle_stage2_fault`; the result is missing where the hypervisor faults. -/
def handleStage2FaultEnd (cause : BitVec 64) : Option TrapEnd :=
  let faultAddr := stage2FaultAddr csrs.htval csrs.stval
  let value := if csrs.stval ≠ 0 then csrs.stval else faultAddr
  match handleStage2Fault y.layout y.root y.regions csrs.htval csrs.stval host with
  | .error _ _ => none
  | .ok .redirected host' =>
    some (redirectEnd csrs regs host' (guestPageFaultCause cause) value)
  | .ok .emulated host' =>
    match (vcpuEmulateMmio y.layout y.mem y.regions y.read csrs.htinst regs faultAddr
        (cause == excpStoreGuestAmoAccessFault)).result with
    | none => none
    | some none => some (redirectEnd csrs regs host' (guestPageFaultCause cause) value)
    | some (some done) => some ⟨0, done.regs, csrs.vs, host'⟩
  | .ok .mapped host' => some ⟨0, regs, csrs.vs, host'⟩

def handleVirtualInstruction : TrapEnd :=
  if csrs.stval &&& 0xffffff00 = 0x10500000 then
    ⟨0, regs.setSepc (regs.sepc + 4), csrs.vs, host⟩
  else redirectEnd csrs regs host excpIllegalInst csrs.stval

def riscvGuestFaultHandleException (cause : BitVec 64) : Option TrapEnd :=
  if cause = excpVsEcall then
    (riscvSbiHandleVsEcall y.layout y.mem csrs.vs.vsatp y.env regs).result.map fun done =>
      ⟨0, done.regs, csrs.vs, host⟩
  else if cause = excpInstGuestPageFault ∨ cause = excpLoadGuestAccessFault ∨
      cause = excpStoreGuestAmoAccessFault then handleStage2FaultEnd y csrs regs host cause
  else if cause = excpVirtInstructionFault then some (handleVirtualInstruction csrs regs host)
  else if csrs.hstatus &&& hstatusSpv ≠ 0 then some (redirectEnd csrs regs host cause csrs.stval)
  else some ⟨-1, regs, csrs.vs, host⟩

end

/-! ## Containment -/

def GuestPageFault (cause : BitVec 64) : Prop :=
  cause = excpInstGuestPageFault ∨ cause = excpLoadGuestAccessFault ∨
    cause = excpStoreGuestAmoAccessFault

instance (cause : BitVec 64) : Decidable (GuestPageFault cause) :=
  inferInstanceAs (Decidable (_ ∨ _ ∨ _))

/-- The cause that a guest sees. -/
def guestCause (cause : BitVec 64) : BitVec 64 :=
  if GuestPageFault cause then guestPageFaultCause cause
  else if cause = excpVirtInstructionFault then excpIllegalInst
  else cause

/-- The value that a guest sees: `stval`, or the address of a guest page fault without one. -/
def guestValue (csrs : TrapCsrs) (cause : BitVec 64) : BitVec 64 :=
  if GuestPageFault cause ∧ csrs.stval = 0 then stage2FaultAddr csrs.htval csrs.stval
  else csrs.stval

/-- What a trap may change in the registers of the frame: `a0` and `a1` by a call, and one
register by a load from a device. -/
def FrameKept (y : Hyper) (csrs : TrapCsrs) (cause : BitVec 64) (regs regs' : CpuUserRegs) : Prop :=
  (cause = excpVsEcall ∧ ∀ i, i ≠ 0 → i ≠ a0Slot → i ≠ a1Slot → regs' i = regs i) ∨
  (GuestPageFault cause ∧
    (∃ region, guestMemFindRegion y.regions (stage2FaultAddr csrs.htval csrs.stval).toNat =
      some region ∧ region.dev = true) ∧
    ∃ r : Fin 36, r ≠ 0 ∧ r ≤ 31 ∧ ∀ i, i ≠ 0 → i ≠ r → regs' i = regs i) ∨
  ∀ i, i ≠ 0 → regs' i = regs i

/-- The guest is at its vector with the trap in its CSRs. -/
structure Redirected (csrs : TrapCsrs) (cause : BitVec 64) (regs : CpuUserRegs) (e : TrapEnd) :
    Prop where
  vector : e.regs.sepc = csrs.vs.vstvec
  epc : e.vs.vsepc = regs.sepc
  scause : e.vs.vscause = guestCause cause
  tval : e.vs.vstval = guestValue csrs cause

structure Contained (y : Hyper) (csrs : TrapCsrs) (regs : CpuUserRegs) (cause : BitVec 64)
    (e : TrapEnd) : Prop where
  ret : e.ret = 0
  frame : FrameKept y csrs cause regs e.regs
  pc : e.regs.sepc = regs.sepc ∨ e.regs.sepc = regs.sepc + 2 ∨ e.regs.sepc = regs.sepc + 4 ∨
    Redirected csrs cause regs e

/-- What the hypervisor reads for the trap is mapped, and so are the stage-2 tables it walks. -/
structure TrapServed (y : Hyper) (csrs : TrapCsrs) (regs : CpuUserRegs) (cause : BitVec 64)
    (host : Host) : Prop where
  mask : cause = excpVsEcall → readsMask (regs a7Slot) = true → regs a0Slot ≠ 0 →
    WordInside allMemory y.layout y.mem csrs.vs.vsatp (regs a0Slot)
  device : GuestPageFault cause → ∀ region,
    guestMemFindRegion y.regions (stage2FaultAddr csrs.htval csrs.stval).toNat = some region →
    region.dev = true →
    (regs.sepc.toNat < pageVirtOffset ∨ csrs.htinst.setWidth 32 = 0#32 →
      InstInside allMemory y.layout y.mem regs.sepc)
  table : GuestPageFault cause → ∀ region,
    guestMemFindRegion y.regions (stage2FaultAddr csrs.htval csrs.stval).toNat = some region →
    region.dev = false →
    MapRoom y.layout false y.root host
      (stage2FaultAddr csrs.htval csrs.stval &&& ~~~0xfff#64).toNat pageSize

section

variable {y : Hyper} {csrs : TrapCsrs} {regs : CpuUserRegs} {host : Host} {cause : BitVec 64}

theorem fault_not_ecall (hc : GuestPageFault cause) : cause ≠ excpVsEcall := by
  rcases hc with rfl | rfl | rfl <;> decide

/-- A redirection is contained if its cause and value are those of the guest. -/
theorem redirect_contained {scause stval : BitVec 64} (hc : scause = guestCause cause)
    (hv : stval = guestValue csrs cause) :
    Contained y csrs regs cause (redirectEnd csrs regs host scause stval) :=
  ⟨rfl, .inr (.inr fun _ hi => CpuUserRegs.setSepc_ne _ _ hi),
    .inr (.inr (.inr ⟨CpuUserRegs.sepc_setSepc _ _, rfl, hc, hv⟩))⟩

theorem xSlot_le (r : BitVec 5) : xSlot r ≤ 31 := by
  have hlt := r.isLt
  exact Fin.le_def.2 (Nat.le_of_lt_succ hlt)

/-- An emulation writes at most one register, and steps over the instruction. -/
theorem emulate_frame {L : Layout} {mem : Nat → BitVec 8} {regions : List MemRegion}
    {read : BitVec 64 → Nat → BitVec 64} {htinst faultAddr : BitVec 64} {isWrite : Bool}
    {done : Emulated}
    (h : (vcpuEmulateMmio L mem regions read htinst regs faultAddr isWrite).result =
      some (some done)) :
    (∃ r : Fin 36, r ≠ 0 ∧ r ≤ 31 ∧ ∀ i, i ≠ 0 → i ≠ r → done.regs i = regs i) ∧
      (done.regs.sepc = regs.sepc + 2 ∨ done.regs.sepc = regs.sepc + 4) := by
  unfold vcpuEmulateMmio at h
  obtain ⟨inst, -, h⟩ := bind_result_eq_some h
  have hlen : insnLen inst = 2 ∨ insnLen inst = 4 := by
    unfold insnLen
    split
    · exact .inl rfl
    · exact .inr rfl
  simp only at h
  cases hregion : guestMemFindRegion regions faultAddr.toNat with
  | none =>
    rw [hregion] at h
    cases h
  | some region =>
    rw [hregion] at h
    simp only at h
    split at h
    · cases h
    split at h
    · -- a store
      rw [← Option.some.inj (Option.some.inj h)]
      refine ⟨⟨1, by decide, by decide, fun i hi _ => CpuUserRegs.setSepc_ne _ _ hi⟩, ?_⟩
      rw [CpuUserRegs.sepc_setSepc]
      rcases hlen with hlen | hlen <;> simp [hlen]
    · -- a load
      rw [← Option.some.inj (Option.some.inj h)]
      simp only [set_rd_eq]
      generalize hrd : RvIsa.rd (decodeInst htinst inst) = rd
      generalize read faultAddr (instToAccessLen (decodeInst htinst inst)) = v
      constructor
      · by_cases hzero : rd = 0
        · refine ⟨1, by decide, by decide, fun i hi _ => ?_⟩
          rw [CpuUserRegs.setSepc_ne _ _ hi, setX_other (.inl hzero)]
        · refine ⟨xSlot rd, xSlot_ne_zero hzero, xSlot_le rd, fun i hi hr => ?_⟩
          rw [CpuUserRegs.setSepc_ne _ _ hi, setX_other (.inr hr)]
      · rw [CpuUserRegs.sepc_setSepc, sepc_setX]
        rcases hlen with hlen | hlen <;> simp [hlen]

/-- It returns exactly where the instruction can be fetched. -/
theorem emulate_returns {L : Layout} {mem : Nat → BitVec 8} {regions : List MemRegion}
    {read : BitVec 64 → Nat → BitVec 64} {htinst faultAddr : BitVec 64} {isWrite : Bool} :
    (vcpuEmulateMmio L mem regions read htinst regs faultAddr isWrite).result.isSome ↔
      (regs.sepc.toNat < pageVirtOffset ∨ htinst.setWidth 32 = 0#32 →
        InstInside allMemory L mem regs.sepc) := by
  unfold vcpuEmulateMmio
  refine (bind_isSome fun inst => ?_).trans vcpuFetchInst_returns
  cases guestMemFindRegion regions faultAddr.toNat with
  | none => rfl
  | some region =>
    simp only
    split
    · rfl
    split <;> rfl

/-- A call is contained exactly when its mask can be read. -/
theorem ecall_contained (hecall : cause = excpVsEcall) :
    (∃ e, (riscvSbiHandleVsEcall y.layout y.mem csrs.vs.vsatp y.env regs).result.map
        (fun done => TrapEnd.mk 0 done.regs csrs.vs host) = some e ∧
      Contained y csrs regs cause e) ↔ TrapServed y csrs regs cause host := by
  have hfault : ¬ GuestPageFault cause := fun h => fault_not_ecall h hecall
  constructor
  · rintro ⟨e, he, -⟩
    obtain ⟨out, hout, -⟩ := Option.map_eq_some_iff.1 he
    obtain ⟨done, hdone, -⟩ := handler_result hout
    exact ⟨fun _ => dispatch_returns.1 (Option.isSome_of_eq_some hdone),
      fun h => absurd h hfault, fun h => absurd h hfault⟩
  · intro hserved
    have hmask : (sbiDispatch y.layout y.mem csrs.vs.vsatp y.env regs).result.isSome :=
      dispatch_returns.2 (hserved.mask hecall)
    obtain ⟨done, hdone⟩ := Option.isSome_iff_exists.1 hmask
    obtain ⟨hframe, hsepc⟩ := final_frame hdone
    refine ⟨⟨0, done.final, csrs.vs, host⟩, ?_, rfl, .inl ⟨hecall, hframe⟩,
      .inr (.inr (.inl hsepc))⟩
    rw [handler_some hdone]
    rfl

/-- What becomes of a guest page fault, by the region that it hits. -/
theorem stage2Fault_none {L : Layout} {root : Nat} {regions : List MemRegion}
    {htval stval : BitVec 64}
    (h : guestMemFindRegion regions (stage2FaultAddr htval stval).toNat = none) :
    handleStage2Fault L root regions htval stval host = .ok .redirected host := by
  unfold handleStage2Fault
  rw [h]
  rfl

theorem stage2Fault_device {L : Layout} {root : Nat} {regions : List MemRegion}
    {htval stval : BitVec 64} {region : MemRegion}
    (h : guestMemFindRegion regions (stage2FaultAddr htval stval).toNat = some region)
    (hdev : region.dev = true) :
    handleStage2Fault L root regions htval stval host = .ok .emulated host := by
  unfold handleStage2Fault
  simp only [h, hdev, if_true]
  rfl

/-- A fault outside the devices is mapped exactly where the tables are in reach. -/
theorem stage2Fault_table {L : Layout} {root : Nat} {regions : List MemRegion}
    {htval stval : BitVec 64} {region : MemRegion} (hr : StaticRoot L root)
    (ht : Tables (pgMapper L false) root 3 host)
    (hsome : pgNeeded L root host (stage2FaultAddr htval stval &&& ~~~0xfff#64).toNat pageSize ≤
      evenFree host.bitmap (totalPages / 2))
    (h : guestMemFindRegion regions (stage2FaultAddr htval stval).toNat = some region)
    (hdev : region.dev = false) :
    (MapRoom L false root host (stage2FaultAddr htval stval &&& ~~~0xfff#64).toNat pageSize →
      ∃ host', handleStage2Fault L root regions htval stval host = .ok .mapped host') ∧
    (¬ MapRoom L false root host (stage2FaultAddr htval stval &&& ~~~0xfff#64).toNat pageSize →
      ∃ e host', handleStage2Fault L root regions htval stval host = .error e host') := by
  unfold handleStage2Fault
  simp only [h, hdev]
  constructor
  · intro hroom
    obtain ⟨host', hrun, -, -⟩ := pgMap_run
      (MachineInt.toUInt64 (region.hpa + ((stage2FaultAddr htval stval &&& ~~~0xfff#64).toNat -
        region.gpa : Int))) region.attr hr ht hroom
    exact ⟨host', bind_ok hrun⟩
  · intro hroom
    have hfails : Fails (pgMap L false root 0 (stage2FaultAddr htval stval &&& ~~~0xfff#64).toNat
        (MachineInt.toUInt64 (region.hpa + ((stage2FaultAddr htval stval &&& ~~~0xfff#64).toNat -
          region.gpa : Int))) pageSize region.attr host) := pgMap_direct_fails hr ht hsome hroom
    exact hfails.bind fun _ => pure FaultResult.mapped

theorem guestCause_of_fault (hc : GuestPageFault cause) :
    guestCause cause = guestPageFaultCause cause := if_pos hc

theorem guestValue_of_fault (hc : GuestPageFault cause) : guestValue csrs cause =
    if csrs.stval ≠ 0 then csrs.stval else stage2FaultAddr csrs.htval csrs.stval := by
  unfold guestValue
  by_cases hzero : csrs.stval = 0
  · rw [if_pos ⟨hc, hzero⟩, if_neg (by simpa using hzero)]
  · rw [if_neg fun h => hzero h.2, if_pos hzero]

/-- A guest page fault is contained exactly when it is served. -/
theorem fault_contained (hr : StaticRoot y.layout y.root)
    (ht : Tables (pgMapper y.layout false) y.root 3 host)
    (hsome : pgNeeded y.layout y.root host
      (stage2FaultAddr csrs.htval csrs.stval &&& ~~~0xfff#64).toNat pageSize ≤
        evenFree host.bitmap (totalPages / 2))
    (hc : GuestPageFault cause) :
    (∃ e, handleStage2FaultEnd y csrs regs host cause = some e ∧ Contained y csrs regs cause e) ↔
      TrapServed y csrs regs cause host := by
  have hredirect : Contained y csrs regs cause (redirectEnd csrs regs host
      (guestPageFaultCause cause)
      (if csrs.stval ≠ 0 then csrs.stval else stage2FaultAddr csrs.htval csrs.stval)) :=
    redirect_contained (guestCause_of_fault hc).symm (guestValue_of_fault hc).symm
  unfold handleStage2FaultEnd
  cases hregion : guestMemFindRegion y.regions (stage2FaultAddr csrs.htval csrs.stval).toNat with
  | none =>
    simp only [stage2Fault_none hregion]
    refine iff_of_true ⟨_, rfl, hredirect⟩ ⟨fun he => absurd he (fault_not_ecall hc),
      fun _ region h => ?_, fun _ region h => ?_⟩
    · rw [hregion] at h
      cases h
    · rw [hregion] at h
      cases h
  | some region =>
    cases hdev : region.dev with
    | true =>
      simp only [stage2Fault_device hregion hdev]
      have hfetch : (vcpuEmulateMmio y.layout y.mem y.regions y.read csrs.htinst regs
          (stage2FaultAddr csrs.htval csrs.stval)
          (cause == excpStoreGuestAmoAccessFault)).result.isSome ↔ _ := emulate_returns
      have hserved : TrapServed y csrs regs cause host ↔
          (regs.sepc.toNat < pageVirtOffset ∨ csrs.htinst.setWidth 32 = 0#32 →
            InstInside allMemory y.layout y.mem regs.sepc) := by
        refine ⟨fun h => h.device hc region hregion hdev,
          fun h => ⟨fun he => absurd he (fault_not_ecall hc), fun _ _ _ _ => h, fun _ region' h' hdev' => ?_⟩⟩
        rw [hregion] at h'
        cases h'
        rw [hdev] at hdev'
        cases hdev'
      rw [hserved, ← hfetch]
      cases hemul : (vcpuEmulateMmio y.layout y.mem y.regions y.read csrs.htinst regs
          (stage2FaultAddr csrs.htval csrs.stval) (cause == excpStoreGuestAmoAccessFault)).result with
      | none =>
        refine iff_of_false ?_ (by simp)
        rintro ⟨e, he, -⟩
        cases he
      | some result =>
        cases result with
        | none => exact iff_of_true ⟨_, rfl, hredirect⟩ rfl
        | some done =>
          obtain ⟨hframe, hsepc⟩ := emulate_frame hemul
          refine iff_of_true ⟨_, rfl, rfl, .inr (.inl ⟨hc, ⟨region, hregion, hdev⟩, hframe⟩), ?_⟩ rfl
          exact .inr (hsepc.imp_right .inl)
    | false =>
      obtain ⟨hok, herr⟩ := stage2Fault_table hr ht hsome hregion hdev
      by_cases hroom : MapRoom y.layout false y.root host
          (stage2FaultAddr csrs.htval csrs.stval &&& ~~~0xfff#64).toNat pageSize
      · obtain ⟨host', hrun⟩ := hok hroom
        simp only [hrun]
        refine iff_of_true ⟨_, rfl, rfl, .inr (.inr fun _ _ => rfl), .inl rfl⟩
          ⟨fun he => absurd he (fault_not_ecall hc), fun _ region' h hdev' => ?_, fun _ _ _ _ => hroom⟩
        rw [hregion] at h
        cases h
        rw [hdev] at hdev'
        cases hdev'
      · obtain ⟨e, host', hrun⟩ := herr hroom
        simp only [hrun]
        refine iff_of_false ?_ fun hserved => hroom (hserved.table hc region hregion hdev)
        rintro ⟨e, he, -⟩
        cases he

end

/-- The exact condition under which a guest trap is contained. -/
theorem guest_trap_contained {y : Hyper} {csrs : TrapCsrs} {regs : CpuUserRegs} {host : Host}
    {cause : BitVec 64} (hr : StaticRoot y.layout y.root)
    (ht : Tables (pgMapper y.layout false) y.root 3 host)
    (hsome : pgNeeded y.layout y.root host
      (stage2FaultAddr csrs.htval csrs.stval &&& ~~~0xfff#64).toNat pageSize ≤
        evenFree host.bitmap (totalPages / 2))
    (hguest : csrs.hstatus &&& hstatusSpv ≠ 0) :
    (∃ e, riscvGuestFaultHandleException y csrs regs host cause = some e ∧
      Contained y csrs regs cause e) ↔ TrapServed y csrs regs cause host := by
  unfold riscvGuestFaultHandleException
  by_cases hecall : cause = excpVsEcall
  · rw [if_pos hecall]
    exact ecall_contained hecall
  · rw [if_neg hecall]
    by_cases hfault : cause = excpInstGuestPageFault ∨ cause = excpLoadGuestAccessFault ∨
        cause = excpStoreGuestAmoAccessFault
    · rw [if_pos hfault]
      exact fault_contained hr ht hsome hfault
    · rw [if_neg hfault]
      have hcause : guestCause cause =
          if cause = excpVirtInstructionFault then excpIllegalInst else cause := if_neg hfault
      have hserved : TrapServed y csrs regs cause host :=
        ⟨fun h => absurd h hecall, fun h => absurd h hfault, fun h => absurd h hfault⟩
      have hvalue : csrs.stval = guestValue csrs cause := (if_neg fun h => hfault h.1).symm
      by_cases hvirt : cause = excpVirtInstructionFault
      · rw [if_pos hvirt]
        refine iff_of_true ⟨_, rfl, ?_⟩ hserved
        unfold handleVirtualInstruction
        split
        · exact ⟨rfl, .inr (.inr fun _ hi => CpuUserRegs.setSepc_ne _ _ hi),
            .inr (.inr (.inl (CpuUserRegs.sepc_setSepc _ _)))⟩
        · exact redirect_contained (by rw [hcause, if_pos hvirt]) hvalue
      · rw [if_neg hvirt, if_pos hguest]
        exact iff_of_true ⟨_, rfl, redirect_contained
          (by rw [hcause, if_neg hvirt]) hvalue⟩ hserved

/-- One vCPU, its RAM at 0x90000000, and devices that return 0. -/
def smallHyper : Hyper where
  layout := imageLayout
  mem := fun _ => 0
  root := 0x80300000
  regions := vcpuRegions guestRam
  env := ⟨1, fun _ => none, 0, 1, fun _ => false, fun _ _ => (0, 0)⟩
  read := fun _ _ => 0

/-- The CSRs of a trap on the first register of the UART. -/
def uartTrap : TrapCsrs := ⟨0x80, 0x8000000, 0, 0, ⟨0, 0, 0, 0, 0, 0, 0, 0⟩⟩

/-- A virtual instruction that is no WFI goes back to the guest. -/
theorem guest_trap_contained_virtual :
    ∃ e, riscvGuestFaultHandleException smallHyper uartTrap numbered (clearHost initPageAllocator)
        excpVirtInstructionFault = some e ∧
      Contained smallHyper uartTrap numbered excpVirtInstructionFault e := by
  have htables : Tables (pgMapper smallHyper.layout false) smallHyper.root 3
      (clearHost initPageAllocator) :=
    ((built_clear imageLayout 0x80300000 initPageAllocator).tree imageRoot).tables
  have hsome : pgNeeded smallHyper.layout smallHyper.root (clearHost initPageAllocator)
      (stage2FaultAddr uartTrap.htval uartTrap.stval &&& ~~~0xfff#64).toNat pageSize ≤
      evenFree (clearHost initPageAllocator).bitmap (totalPages / 2) := by
    generalize (stage2FaultAddr uartTrap.htval uartTrap.stval &&& ~~~0xfff#64).toNat = page
    have hle : pgNeeded smallHyper.layout smallHyper.root (clearHost initPageAllocator) page
        pageSize ≤ 3 * pageCount pageSize := needed_le _
    have hone : pageCount pageSize = 1 := by decide
    rw [hone] at hle
    exact hle.trans (evenFree_init.trans (evenFree_mono (by decide)))
  have hguest : uartTrap.hstatus &&& hstatusSpv ≠ 0 := by decide
  have hserved : TrapServed smallHyper uartTrap numbered excpVirtInstructionFault
      (clearHost initPageAllocator) := by
    refine ⟨fun h => ?_, fun h => ?_, fun h => ?_⟩
    · exact absurd h (by decide)
    · exact absurd h (by decide)
    · exact absurd h (by decide)
  exact (guest_trap_contained imageRoot htables hsome hguest).2 hserved

/-- A guest with its MMU on stores to the UART from the virtual address 0x10000, which the
hypervisor dereferences. -/
theorem low_pc_faults :
    (∃ region, guestMemFindRegion smallHyper.regions
      (stage2FaultAddr uartTrap.htval uartTrap.stval).toNat = some region ∧ region.dev = true) ∧
    ¬ ∃ e, riscvGuestFaultHandleException smallHyper uartTrap (numbered.setSepc 0x10000)
        (clearHost initPageAllocator) excpStoreGuestAmoAccessFault = some e ∧
      Contained smallHyper uartTrap (numbered.setSepc 0x10000) excpStoreGuestAmoAccessFault e := by
  have hregion : guestMemFindRegion smallHyper.regions
      (stage2FaultAddr uartTrap.htval uartTrap.stval).toNat = some uartRegion := by
    decide +kernel
  refine ⟨⟨uartRegion, hregion, rfl⟩, ?_⟩
  rintro ⟨e, he, -⟩
  have hnone : (vcpuEmulateMmio smallHyper.layout smallHyper.mem smallHyper.regions smallHyper.read
      uartTrap.htinst (numbered.setSepc 0x10000) (stage2FaultAddr uartTrap.htval uartTrap.stval)
      (excpStoreGuestAmoAccessFault == excpStoreGuestAmoAccessFault)).result = none := by
    rw [← Option.isNone_iff_eq_none]
    decide +kernel
  unfold riscvGuestFaultHandleException at he
  rw [if_neg (by decide), if_pos (by decide), handleStage2FaultEnd] at he
  simp only [stage2Fault_device hregion rfl, hnone] at he
  cases he

end HyperCore.Riscv64
