import HyperCore.AArch64.GuestMemory
import HyperCore.AArch64.VcpuContext

/-!
# The emulation of a data abort

`emulate_mmio_access` decodes the syndrome of a data abort on an emulated device. It hands the
register number and the access size on, and drops the rest of the syndrome: whether it is valid,
the sign bit and the width of the register.

`mmio_access_exact`: the access is the architecture's exactly if the syndrome is valid, a stored
register has no bits above the access size, and a loaded value is already extended.
-/

namespace HyperCore.AArch64

/-! ## The syndrome -/

/-- The fields of `struct esr_dabt`. -/
def dabtWrite (esr : BitVec 32) : Bool := esr.getLsbD 6
def dabtSf (esr : BitVec 32) : Bool := esr.getLsbD 15
def dabtReg (esr : BitVec 32) : BitVec 5 := esr.extractLsb' 16 5
def dabtSign (esr : BitVec 32) : Bool := esr.getLsbD 21
def dabtSize (esr : BitVec 32) : BitVec 2 := esr.extractLsb' 22 2
def dabtValid (esr : BitVec 32) : Bool := esr.getLsbD 24

/-! ## The code -/

/-- `struct emul_driver_ops`, whose functions may be missing. `read addr len` is the value, or
`none` for a failure; `write addr len value` says whether it succeeds. -/
structure EmulDriverOps where
  read : Option (BitVec 64 → Nat → Option (BitVec 64))
  write : Option (BitVec 64 → Nat → BitVec 64 → Bool)

/-- A call of a driver, with what it answered. -/
inductive DriverCall
  | read (addr : BitVec 64) (len : Nat) (answer : Option (BitVec 64))
  | write (addr : BitVec 64) (len : Nat) (value : BitVec 64) (ok : Bool)

inductive GuestFaultError
  | noCurrentVcpu | unmappedIpa | nonMmioAccessFault | emulateFailed
deriving DecidableEq

/-- What an abort comes to: the guest resumes, or an error. -/
structure AbortEnd where
  error : Option GuestFaultError
  calls : List DriverCall
  regs : CpuUserRegs

namespace CpuUserRegs

def setX (regs : CpuUserRegs) (i : Fin 31) (v : BitVec 64) : CpuUserRegs :=
  { regs with x := fun j => if j = i then v else regs.x j }

def advance (regs : CpuUserRegs) : CpuUserRegs := { regs with pc := regs.pc + 4 }

end CpuUserRegs

def vcpuRegRead (regs : CpuUserRegs) (id : BitVec 5) : BitVec 64 :=
  if h : id.toNat < 31 then regs.x ⟨id.toNat, h⟩ else 0

def vcpuRegWrite (regs : CpuUserRegs) (id : BitVec 5) (value : BitVec 64) : CpuUserRegs :=
  if h : id.toNat < 31 then regs.setX ⟨id.toNat, h⟩ value else regs

def failure (error : GuestFaultError) (calls : List DriverCall) (regs : CpuUserRegs) : AbortEnd :=
  ⟨some error, calls, regs⟩

/-- `vcpu_emulate_read`, and the step of `pc` after it. -/
def vcpuEmulateRead (read : BitVec 64 → Nat → Option (BitVec 64)) (regs : CpuUserRegs)
    (ipa : BitVec 64) (reg : BitVec 5) (size : Nat) : AbortEnd :=
  match read ipa size with
  | none => failure .emulateFailed [.read ipa size none] regs
  | some value => ⟨none, [.read ipa size (some value)], (vcpuRegWrite regs reg value).advance⟩

def vcpuEmulateWrite (write : BitVec 64 → Nat → BitVec 64 → Bool) (regs : CpuUserRegs)
    (ipa : BitVec 64) (reg : BitVec 5) (size : Nat) : AbortEnd :=
  let value := vcpuRegRead regs reg
  if write ipa size value then ⟨none, [.write ipa size value true], regs.advance⟩
  else failure .emulateFailed [.write ipa size value false] regs

/-- `vcpu` is the region list of the current vCPU, and `ops` what `probe_emul_dev` has found for a
region. -/
def emulateMmioAccess (vcpu : Option (List MemRegion)) (ops : MemRegion → Option EmulDriverOps)
    (regs : CpuUserRegs) (ipa : BitVec 64) (esr : BitVec 32) : AbortEnd :=
  match vcpu with
  | none => failure .noCurrentVcpu [] regs
  | some regions =>
    match guestMemFindRegion regions ipa.toNat with
    | none => failure .unmappedIpa [] regs
    | some mem =>
      match ops mem with
      | none => failure .nonMmioAccessFault [] regs
      | some o =>
        if dabtWrite esr then
          match o.write with
          | none => failure .emulateFailed [] regs
          | some write => vcpuEmulateWrite write regs ipa (dabtReg esr) (dabtSize esr).toNat
        else
          match o.read with
          | none => failure .emulateFailed [] regs
          | some read => vcpuEmulateRead read regs ipa (dabtReg esr) (dabtSize esr).toNat

/-! ## The architecture -/

/-- `Xt`, where register 31 reads as zero. -/
def xt (regs : CpuUserRegs) (esr : BitVec 32) : BitVec 64 :=
  if h : (dabtReg esr).toNat < 31 then regs.x ⟨(dabtReg esr).toNat, h⟩ else 0

def accessBits (esr : BitVec 32) : Nat := 8 * 2 ^ (dabtSize esr).toNat

/-- What a store passes on: the low bits of `Xt`. -/
def stored (esr : BitVec 32) (v : BitVec 64) : BitVec 64 :=
  (v.setWidth (accessBits esr)).setWidth 64

/-- What a load makes of the value: the low bits, extended to the width of the register. -/
def loaded (esr : BitVec 32) (v : BitVec 64) : BitVec 64 :=
  let low := v.setWidth (accessBits esr)
  let extended := if dabtSign esr then low.signExtend 64 else low.setWidth 64
  if dabtSf esr then extended else (extended.setWidth 32).setWidth 64

/-- The frame after a load of `v`: `Xt` is written unless it is register 31. -/
def loadedRegs (regs : CpuUserRegs) (esr : BitVec 32) (v : BitVec 64) : CpuUserRegs :=
  if h : (dabtReg esr).toNat < 31 then (regs.setX ⟨(dabtReg esr).toNat, h⟩ v).advance
  else regs.advance

/-- The outcome of an abort is the architecture's. -/
structure AccessMatches (regs : CpuUserRegs) (ipa : BitVec 64) (esr : BitVec 32) (e : AbortEnd) :
    Prop where
  valid : e.calls ≠ [] → dabtValid esr = true
  passed : ∀ addr len value ok, .write addr len value ok ∈ e.calls →
    value = stored esr (xt regs esr)
  store : dabtWrite esr = true → e.error = none →
    e.calls = [.write ipa (dabtSize esr).toNat (stored esr (xt regs esr)) true] ∧
      e.regs = regs.advance
  load : dabtWrite esr = false → e.error = none →
    ∃ v, e.calls = [.read ipa (dabtSize esr).toNat (some v)] ∧
      e.regs = loadedRegs regs esr (loaded esr v)
  failed : e.error ≠ none → e.regs = regs

/-- Where the abort reaches a driver, its syndrome is valid and the value that is moved is the one
of the architecture. -/
def AccessSound (vcpu : Option (List MemRegion)) (ops : MemRegion → Option EmulDriverOps)
    (regs : CpuUserRegs) (ipa : BitVec 64) (esr : BitVec 32) : Prop :=
  ∀ regions mem o, vcpu = some regions → guestMemFindRegion regions ipa.toNat = some mem →
    ops mem = some o →
    (dabtWrite esr = true → o.write.isSome →
      dabtValid esr = true ∧ xt regs esr = stored esr (xt regs esr)) ∧
    (dabtWrite esr = false → ∀ read, o.read = some read →
      dabtValid esr = true ∧ ∀ v, read ipa (dabtSize esr).toNat = some v →
        dabtReg esr = 31 ∨ v = loaded esr v)

section

variable {regs : CpuUserRegs} {ipa : BitVec 64} {esr : BitVec 32}

/-- A failure before the driver is called. -/
theorem failure_matches (error : GuestFaultError) :
    AccessMatches regs ipa esr (failure error [] regs) := by
  refine ⟨fun h => absurd rfl h, fun addr len value ok h => ?_, fun _ h => ?_, fun _ h => ?_,
    fun _ => rfl⟩
  · cases h
  · cases h
  · cases h

theorem setX_advance_inj {i : Fin 31} {v w : BitVec 64}
    (h : (regs.setX i v).advance = (regs.setX i w).advance) : v = w := by
  have hx := congrFun (congrArg CpuUserRegs.x h) i
  simpa [CpuUserRegs.advance, CpuUserRegs.setX] using hx

theorem reg_eq_31 : dabtReg esr = 31 ↔ ¬ (dabtReg esr).toNat < 31 := by
  have hlt := (dabtReg esr).isLt
  constructor
  · intro h
    rw [h]
    decide
  · intro h
    apply BitVec.eq_of_toNat_eq
    change _ = 31
    omega

/-- The frame after a load is right exactly if the value is, or is discarded. -/
theorem loadedRegs_iff {v : BitVec 64} :
    (vcpuRegWrite regs (dabtReg esr) v).advance = loadedRegs regs esr (loaded esr v) ↔
      dabtReg esr = 31 ∨ v = loaded esr v := by
  unfold vcpuRegWrite loadedRegs
  split
  · next hlt =>
    rw [or_iff_right fun h => reg_eq_31.1 h hlt]
    refine ⟨setX_advance_inj, fun h => ?_⟩
    rw [← h]
  · next hge => exact iff_of_true rfl (.inl (reg_eq_31.2 hge))

theorem emulateWrite_matches (write : BitVec 64 → Nat → BitVec 64 → Bool)
    (hw : dabtWrite esr = true) :
    AccessMatches regs ipa esr
        (vcpuEmulateWrite write regs ipa (dabtReg esr) (dabtSize esr).toNat) ↔
      dabtValid esr = true ∧ xt regs esr = stored esr (xt regs esr) := by
  have hx : vcpuRegRead regs (dabtReg esr) = xt regs esr := rfl
  unfold vcpuEmulateWrite
  simp only [hx]
  cases hok : write ipa (dabtSize esr).toNat (xt regs esr) with
  | true =>
    simp only [if_true]
    constructor
    · intro h
      exact ⟨h.valid (by simp), h.passed _ _ _ _ (List.mem_singleton.2 rfl)⟩
    · rintro ⟨hvalid, hvalue⟩
      refine ⟨fun _ => hvalid, fun addr len value ok h => ?_, fun _ _ => ⟨?_, rfl⟩, fun h => ?_,
        fun h => absurd rfl h⟩
      · cases List.mem_singleton.1 h
        exact hvalue
      · rw [← hvalue]
      · rw [hw] at h
        cases h
  | false =>
    simp only [Bool.false_eq_true, if_false]
    constructor
    · intro h
      exact ⟨h.valid (by simp [failure]), h.passed _ _ _ _ (List.mem_singleton.2 rfl)⟩
    · rintro ⟨hvalid, hvalue⟩
      refine ⟨fun _ => hvalid, fun addr len value ok h => ?_, fun _ h => ?_, fun _ h => ?_,
        fun _ => rfl⟩
      · cases List.mem_singleton.1 h
        exact hvalue
      · cases h
      · cases h

theorem emulateRead_matches (read : BitVec 64 → Nat → Option (BitVec 64))
    (hr : dabtWrite esr = false) :
    AccessMatches regs ipa esr
        (vcpuEmulateRead read regs ipa (dabtReg esr) (dabtSize esr).toNat) ↔
      dabtValid esr = true ∧ ∀ v, read ipa (dabtSize esr).toNat = some v →
        dabtReg esr = 31 ∨ v = loaded esr v := by
  unfold vcpuEmulateRead
  cases hanswer : read ipa (dabtSize esr).toNat with
  | none =>
    constructor
    · intro h
      refine ⟨h.valid (by simp [failure]), fun v hv => ?_⟩
      cases hv
    · rintro ⟨hvalid, -⟩
      refine ⟨fun _ => hvalid, fun addr len value ok h => ?_, fun _ h => ?_, fun _ h => ?_,
        fun _ => rfl⟩
      · cases List.mem_singleton.1 h
      · cases h
      · cases h
  | some v =>
    constructor
    · intro h
      refine ⟨h.valid (by simp), fun v' hv' => ?_⟩
      cases hv'
      obtain ⟨w, hcalls, hregs⟩ := h.load hr rfl
      cases hcalls
      exact loadedRegs_iff.1 hregs
    · rintro ⟨hvalid, hvalue⟩
      refine ⟨fun _ => hvalid, fun addr len value ok h => ?_, fun h => ?_,
        fun _ _ => ⟨v, rfl, loadedRegs_iff.2 (hvalue v rfl)⟩, fun h => absurd rfl h⟩
      · cases List.mem_singleton.1 h
      · rw [hr] at h
        cases h

end

/-- The exact condition for the emulation of a data abort. -/
theorem mmio_access_exact (vcpu : Option (List MemRegion)) (ops : MemRegion → Option EmulDriverOps)
    (regs : CpuUserRegs) (ipa : BitVec 64) (esr : BitVec 32) :
    AccessMatches regs ipa esr (emulateMmioAccess vcpu ops regs ipa esr) ↔
      AccessSound vcpu ops regs ipa esr := by
  unfold emulateMmioAccess AccessSound
  cases vcpu with
  | none =>
    refine iff_of_true (failure_matches _) fun _ _ _ hv => ?_
    cases hv
  | some regions =>
    cases hmem : guestMemFindRegion regions ipa.toNat with
    | none =>
      simp only [hmem]
      refine iff_of_true (failure_matches _) fun _ _ _ hv hf => ?_
      rw [← Option.some.inj hv, hmem] at hf
      cases hf
    | some mem =>
      cases hops : ops mem with
      | none =>
        simp only [hmem, hops]
        refine iff_of_true (failure_matches _) fun _ _ _ hv hf ho => ?_
        rw [← Option.some.inj hv, hmem] at hf
        rw [← Option.some.inj hf, hops] at ho
        cases ho
      | some o =>
        have hsound (P : EmulDriverOps → Prop) :
            (∀ regions' mem' o', some regions = some regions' →
              guestMemFindRegion regions' ipa.toNat = some mem' → ops mem' = some o' → P o') ↔
              P o := by
          refine ⟨fun h => h regions mem o rfl hmem hops, fun h _ _ o' hv hf ho => ?_⟩
          rw [← Option.some.inj hv, hmem] at hf
          rw [← Option.some.inj hf, hops] at ho
          rwa [← Option.some.inj ho]
        rw [hsound]
        simp only [hmem, hops]
        cases hw : dabtWrite esr with
        | true =>
          cases hwrite : o.write with
          | none =>
            refine iff_of_true (failure_matches _) ⟨fun _ h => ?_, fun h => ?_⟩
            · cases h
            · cases h
          | some write =>
            refine (emulateWrite_matches write hw).trans ⟨fun h => ⟨fun _ _ => h, fun hf => ?_⟩,
              fun h => h.1 rfl rfl⟩
            cases hf
        | false =>
          cases hread : o.read with
          | none =>
            refine iff_of_true (failure_matches _) ⟨fun h => ?_, fun _ _ h => ?_⟩
            · cases h
            · cases h
          | some read =>
            refine (emulateRead_matches read hw).trans ⟨fun h => ⟨fun hf => ?_, fun _ read' hr => ?_⟩,
              fun h => h.2 rfl read rfl⟩
            · cases hf
            · rw [← Option.some.inj hr]
              exact h

/-- A store pair to the UART, whose syndrome is not valid, becomes a byte store of `X0`. -/
theorem invalid_syndrome_emulated :
    ¬ AccessMatches ⟨fun _ => 0x61, 0, 0, 0⟩ 0x9000000 0x92000049
      (emulateMmioAccess (some [⟨0x9000000, 0x9000000, 0x1000, .none⟩])
        (fun _ => some ⟨some fun _ _ => some 0, some fun _ _ _ => true⟩)
        ⟨fun _ => 0x61, 0, 0, 0⟩ 0x9000000 0x92000049) := by
  intro h
  have hcalled : (emulateMmioAccess (some [⟨0x9000000, 0x9000000, 0x1000, .none⟩])
      (fun _ => some ⟨some fun _ _ => some 0, some fun _ _ _ => true⟩)
      ⟨fun _ => 0x61, 0, 0, 0⟩ 0x9000000 0x92000049).calls.length = 1 := by decide +kernel
  have hvalid := h.valid fun hnil => by
    rw [hnil] at hcalled
    cases hcalled
  exact absurd hvalid (by decide)

end HyperCore.AArch64
