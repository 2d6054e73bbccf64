import HyperCore.Riscv64.Redirect

/-!
# SBI calls of the guest

`riscv_sbi_handle_vs_ecall` answers an environment call of VS-mode: the legacy extensions 0 to 8
but for `CONSOLE_GETCHAR`, the timer, the IPI and the remote fence extensions itself, the base
extension by the firmware except for its probe.

`sbi_contract_exact` is where the calling convention is kept: an extension without a case gets
`SBI_ERR_FAILED`, and a clobbered `a1` although it may be a legacy one; the probe denies the legacy
extensions; a mask may lie where the hypervisor maps nothing.
-/

namespace HyperCore.Riscv64

open ArchPage ReadLog

/-! ## Ids -/

def sbiSuccess : BitVec 64 := 0
def sbiErrFailed : BitVec 64 := -1
def sbiErrNotSupported : BitVec 64 := -2
def sbiErrInvalidAddress : BitVec 64 := -5

def sbiExt01SetTimer : BitVec 64 := 0
def sbiExt01ConsolePutchar : BitVec 64 := 1
def sbiExt01ClearIpi : BitVec 64 := 3
def sbiExt01Shutdown : BitVec 64 := 8
def sbiExtBase : BitVec 64 := 0x10
def sbiExtTime : BitVec 64 := 0x54494d45
def sbiExtIpi : BitVec 64 := 0x735049
def sbiExtRfence : BitVec 64 := 0x52464e43
def sbiExtHsm : BitVec 64 := 0x48534d

def sbiExtBaseProbeExt : BitVec 64 := 3

def a0Slot : Fin 36 := 10
def a1Slot : Fin 36 := 11
def a6Slot : Fin 36 := 16
def a7Slot : Fin 36 := 17

/-! ## Fences -/

inductive FenceKind
  | remoteFenceI | remoteHfenceVvma | remoteHfenceVvmaAsid | remoteHfenceGvma | remoteHfenceGvmaVmid
deriving DecidableEq

def rfenceKindFromFid (fid : BitVec 64) : Option FenceKind :=
  if fid = 0 then some .remoteFenceI
  else if fid = 4 then some .remoteHfenceGvma
  else if fid = 3 then some .remoteHfenceGvmaVmid
  else if fid = 5 ∨ fid = 2 then some .remoteHfenceVvmaAsid
  else if fid = 6 ∨ fid = 1 then some .remoteHfenceVvma
  else none

/-- What a call does besides its answer. -/
inductive SbiAction
  | putchar (c : BitVec 8)
  | setTimer (deadline : BitVec 64)
  | clearIpi
  | softIrq (hart : Nat)
  | fenceLocal
  | fenceSync (pcpu : Nat)
deriving DecidableEq

/-- What a call depends on: the guest's harts with the affinity of each, the CPUs, which of them do
not acknowledge a fence, and what the firmware answers to a base function. -/
structure SbiEnv where
  count : Nat
  affinity : Nat → Option Int
  cpuId : Nat
  cpuCount : Nat
  syncFails : Nat → Bool
  firmware : BitVec 32 → CpuUserRegs → BitVec 64 × BitVec 64

def guestHartSelected (hart : Nat) (mask base : BitVec 64) : Bool :=
  if base = -1 then true
  else if hart < base.toNat then false
  else if 64 ≤ hart - base.toNat then false
  else mask.getLsbD (hart - base.toNat)

/-- `selected_pcpu` -/
def selectedPcpu (env : SbiEnv) (mask base : BitVec 64) (pcpu : Nat) : Bool :=
  (List.range env.count).any fun hart =>
    guestHartSelected hart mask base &&
      match env.affinity hart with
      | none => false
      | some pinned => (if pinned < 0 then (env.cpuId : Int) else pinned) == (pcpu : Int)

/-- The fences are the same for every kind. -/
def riscvRemoteFence (env : SbiEnv) (_kind : FenceKind) (mask base : BitVec 64) :
    List SbiAction × BitVec 64 :=
  let targets := (List.range (min env.cpuCount 4)).filter (selectedPcpu env mask base)
  (targets.map fun pcpu => if pcpu = env.cpuId then .fenceLocal else .fenceSync pcpu,
    if targets.any fun pcpu => pcpu != env.cpuId && env.syncFails pcpu then sbiErrFailed
    else sbiSuccess)

/-! ## The handlers -/

/-- The actions of a call, and the frame after it. -/
structure SbiDone where
  actions : List SbiAction
  regs : CpuUserRegs

/-- The answer of the legacy extensions. -/
def SbiDone.legacy (actions : List SbiAction) (regs : CpuUserRegs) (value : BitVec 64) : SbiDone :=
  ⟨actions, regs.set a0Slot value⟩

def SbiDone.answer (actions : List SbiAction) (regs : CpuUserRegs) (error value : BitVec 64) :
    SbiDone :=
  ⟨actions, (regs.set a0Slot error).set a1Slot value⟩

def handleLegacySendIpi (L : Layout) (mem : Nat → BitVec 8) (satp : BitVec 64) (env : SbiEnv)
    (regs : CpuUserRegs) : Reads SbiDone := do
  match ← legacyMask L mem satp env.count (regs a0Slot) with
  | none => pure (.legacy [] regs 0)
  | some mask =>
    let harts := (List.range (min env.count 64)).filter mask.getLsbD
    pure (.legacy (harts.map .softIrq) regs 0)

def handleLegacyRemoteFence (L : Layout) (mem : Nat → BitVec 8) (satp : BitVec 64) (env : SbiEnv)
    (regs : CpuUserRegs) (kind : FenceKind) : Reads SbiDone := do
  match ← legacyMask L mem satp env.count (regs a0Slot) with
  | none => pure (.legacy [] regs sbiErrInvalidAddress)
  | some mask =>
    let fence := riscvRemoteFence env kind mask 0
    pure (.legacy fence.1 regs fence.2)

def handleSbiSendIpi (env : SbiEnv) (regs : CpuUserRegs) : SbiDone :=
  let mask := regs a0Slot
  let base := regs a1Slot
  let harts :=
    if base = -1 then List.range env.count
    else ((List.range 64).filter fun bit => mask.getLsbD bit &&
      decide ((base + BitVec.ofNat 64 bit).toNat < env.count)).map fun bit =>
        (base + BitVec.ofNat 64 bit).toNat
  .answer (harts.map .softIrq) regs 0 0

def riscvSbiExtensionSupported (ext : BitVec 64) : Bool :=
  ext == sbiExtBase || ext == sbiExtTime || ext == sbiExtIpi || ext == sbiExtRfence

def handleBaseExtension (env : SbiEnv) (regs : CpuUserRegs) (fid : BitVec 64) : SbiDone :=
  if fid = sbiExtBaseProbeExt then
    .answer [] regs sbiSuccess (if riscvSbiExtensionSupported (regs a0Slot) then 1 else 0)
  else
    let ret := env.firmware (fid.setWidth 32) regs
    .answer [] regs ret.1 ret.2

/-- The cases of the `switch` over the extension. -/
inductive SbiExt
  | consolePutchar | shutdown | setTimer | clearIpi | sendIpi
  | remoteFence (kind : FenceKind)
  | base | ipi | rfence | time | hsm | other
deriving DecidableEq

/-- The labels of the `switch`, in their order. -/
def sbiCases : List (BitVec 64 × SbiExt) :=
  [(sbiExt01ConsolePutchar, .consolePutchar), (sbiExt01Shutdown, .shutdown),
    (sbiExt01SetTimer, .setTimer), (sbiExt01ClearIpi, .clearIpi), (sbiExt01SendIpi, .sendIpi),
    (sbiExt01RemoteFenceI, .remoteFence .remoteFenceI),
    (sbiExt01RemoteSfenceVma, .remoteFence .remoteHfenceVvma),
    (sbiExt01RemoteSfenceVmaAsid, .remoteFence .remoteHfenceVvmaAsid), (sbiExtBase, .base),
    (sbiExtIpi, .ipi), (sbiExtRfence, .rfence), (sbiExtTime, .time), (sbiExtHsm, .hsm)]

def SbiExt.ofId (ext : BitVec 64) : SbiExt :=
  match sbiCases.find? fun c => c.1 == ext with
  | some c => c.2
  | none => .other

/-- The `switch`, without the step of `sepc`. -/
def sbiDispatch (L : Layout) (mem : Nat → BitVec 8) (satp : BitVec 64) (env : SbiEnv)
    (regs : CpuUserRegs) : Reads SbiDone :=
  let fid := regs a6Slot
  match SbiExt.ofId (regs a7Slot) with
  | .consolePutchar => pure (.legacy [.putchar ((regs a0Slot).setWidth 8)] regs sbiSuccess)
  | .shutdown => pure (.legacy [] regs sbiSuccess)
  | .setTimer => pure (.legacy [.setTimer (regs a0Slot)] regs sbiSuccess)
  | .clearIpi => pure (.legacy [.clearIpi] regs sbiSuccess)
  | .sendIpi => handleLegacySendIpi L mem satp env regs
  | .remoteFence kind => handleLegacyRemoteFence L mem satp env regs kind
  | .base => pure (handleBaseExtension env regs fid)
  | .ipi =>
    if fid = 0 then pure (handleSbiSendIpi env regs)
    else pure (.answer [] regs sbiErrNotSupported 0)
  | .rfence =>
    match rfenceKindFromFid fid with
    | none => pure (.answer [] regs sbiErrNotSupported 0)
    | some kind =>
      let fence := riscvRemoteFence env kind (regs a0Slot) (regs a1Slot)
      pure (.answer fence.1 regs fence.2 0)
  | .time =>
    if fid = 0 then pure (.answer [.setTimer (regs a0Slot)] regs sbiSuccess 0)
    else pure (.answer [] regs sbiErrNotSupported 0)
  | .hsm => pure (.answer [] regs sbiErrNotSupported 0)
  | .other => pure (.answer [] regs sbiErrFailed 0)

def riscvSbiHandleVsEcall (L : Layout) (mem : Nat → BitVec 8) (satp : BitVec 64) (env : SbiEnv)
    (regs : CpuUserRegs) : Reads SbiDone := do
  let done ← sbiDispatch L mem satp env regs
  pure { done with regs := done.regs.setSepc (done.regs.sepc + 4) }

/-! ## The calling convention -/

/-- Function `fid` of the extension is dispatched to a handler. -/
def Handled (ext fid : BitVec 64) : Prop :=
  match SbiExt.ofId ext with
  | .ipi | .time => fid = 0
  | .rfence => (rfenceKindFromFid fid).isSome
  | .hsm | .other => False
  | _ => True

/-- What a call may change, and what its answer says. -/
structure SbiContract (regs regs' : CpuUserRegs) : Prop where
  frame : ∀ i, i ≠ 0 → i ≠ a0Slot → i ≠ a1Slot → regs' i = regs i
  sepc : regs'.sepc = regs.sepc + 4
  legacy : (regs a7Slot).toNat ≤ 8 → regs' a1Slot = regs a1Slot
  unsupported : ¬ Handled (regs a7Slot) (regs a6Slot) →
    regs' a0Slot = sbiErrNotSupported ∧ regs' a1Slot = 0
  probe : regs a7Slot = sbiExtBase → regs a6Slot = sbiExtBaseProbeExt →
    regs' a0Slot = sbiSuccess ∧ (regs' a1Slot = 1 ↔ ∃ fid, Handled (regs a0Slot) fid)

/-- The cases of the legacy extensions. -/
def SbiExt.legacy : SbiExt → Bool
  | .consolePutchar | .shutdown | .setTimer | .clearIpi | .sendIpi | .remoteFence _ => true
  | _ => false

/-- The extension has a case, a probe does not ask for a legacy extension that has one, and a mask
lies where the hypervisor can read it. -/
structure SbiServed (L : Layout) (mem : Nat → BitVec 8) (satp : BitVec 64) (regs : CpuUserRegs) :
    Prop where
  known : SbiExt.ofId (regs a7Slot) ≠ .other
  probed : regs a7Slot = sbiExtBase → regs a6Slot = sbiExtBaseProbeExt →
    (SbiExt.ofId (regs a0Slot)).legacy = false
  mask : readsMask (regs a7Slot) = true → regs a0Slot ≠ 0 →
    WordInside allMemory L mem satp (regs a0Slot)

section

variable {ext fid : BitVec 64}

theorem ofId_mem (h : SbiExt.ofId ext ≠ .other) : (ext, SbiExt.ofId ext) ∈ sbiCases := by
  unfold SbiExt.ofId at h ⊢
  cases hfind : sbiCases.find? fun c => c.1 == ext with
  | none => simp [hfind] at h
  | some c =>
    have hid : c.1 = ext := by simpa using List.find?_some hfind
    have hmem := List.mem_of_find?_eq_some hfind
    rw [← hid]
    exact hmem

/-- What holds of every label and its case holds of an extension that has one. -/
theorem ofId_forall {P : BitVec 64 × SbiExt → Prop} [DecidablePred P]
    (hP : ∀ c ∈ sbiCases, P c) (h : SbiExt.ofId ext ≠ .other) : P (ext, SbiExt.ofId ext) :=
  hP _ (ofId_mem h)

/-- The extensions up to 8 are legacy ones. -/
theorem legacy_iff (h : SbiExt.ofId ext ≠ .other) :
    ext.toNat ≤ 8 ↔ (SbiExt.ofId ext).legacy = true :=
  ofId_forall (P := fun c => c.1.toNat ≤ 8 ↔ c.2.legacy = true) (by decide +kernel) h

/-- The cases that read a mask. -/
def SbiExt.masked : SbiExt → Bool
  | .sendIpi | .remoteFence _ => true
  | _ => false

theorem readsMask_eq : readsMask ext = (SbiExt.ofId ext).masked := by
  by_cases h : SbiExt.ofId ext = .other
  · rw [h]
    by_contra hreads
    simp only [SbiExt.masked, Bool.not_eq_false, readsMask, Bool.or_eq_true, beq_iff_eq] at hreads
    rcases hreads with ((rfl | rfl) | rfl) | rfl <;> exact absurd h (by decide +kernel)
  · exact ofId_forall (P := fun c => readsMask c.1 = c.2.masked) (by decide +kernel) h

theorem exists_handled : (∃ fid, Handled ext fid) ↔
    SbiExt.ofId ext ≠ .hsm ∧ SbiExt.ofId ext ≠ .other := by
  unfold Handled
  cases SbiExt.ofId ext with
  | ipi | time => simp
  | rfence => exact iff_of_true ⟨0, rfl⟩ (by simp)
  | hsm | other => simp
  | _ => simp

/-- The list of the probe has the extensions with a case, but for the legacy ones. -/
theorem supported_eq (h : SbiExt.ofId ext ≠ .other) : riscvSbiExtensionSupported ext =
    (!(SbiExt.ofId ext).legacy && SbiExt.ofId ext != .hsm) :=
  ofId_forall (P := fun c => riscvSbiExtensionSupported c.1 = (!c.2.legacy && c.2 != .hsm))
    (by decide +kernel) h

theorem not_supported_of_other (h : SbiExt.ofId ext = .other) :
    riscvSbiExtensionSupported ext = false := by
  by_contra hsup
  rw [Bool.not_eq_false] at hsup
  simp only [riscvSbiExtensionSupported, Bool.or_eq_true, beq_iff_eq] at hsup
  rcases hsup with ((rfl | rfl) | rfl) | rfl <;> exact absurd h (by decide +kernel)

/-- The probe is right but for the legacy extensions. -/
theorem probe_iff : (riscvSbiExtensionSupported ext = true ↔ ∃ fid, Handled ext fid) ↔
    (SbiExt.ofId ext).legacy = false := by
  rw [exists_handled]
  by_cases hother : SbiExt.ofId ext = .other
  · rw [not_supported_of_other hother, hother]
    simp [SbiExt.legacy]
  · rw [supported_eq hother]
    generalize SbiExt.ofId ext = k at hother
    cases k <;> simp_all [SbiExt.legacy]

end

/-! ## The answers -/

section

variable {L : Layout} {mem : Nat → BitVec 8} {satp : BitVec 64} {env : SbiEnv}
  {regs : CpuUserRegs} {done : SbiDone}

theorem dispatch_legacy (hk : (SbiExt.ofId (regs a7Slot)).legacy = true)
    (h : (sbiDispatch L mem satp env regs).result = some done) :
    ∃ actions value, done = .legacy actions regs value := by
  unfold sbiDispatch at h
  cases hid : SbiExt.ofId (regs a7Slot) with
  | consolePutchar | shutdown | setTimer | clearIpi =>
    simp only [hid, result_pure, Option.some.injEq] at h
    exact ⟨_, _, h.symm⟩
  | sendIpi | remoteFence kind =>
    simp only [hid] at h
    obtain ⟨mask, -, hdone⟩ := bind_result_eq_some h
    cases mask with
    | none => exact ⟨_, _, (Option.some.inj hdone).symm⟩
    | some mask => exact ⟨_, _, (Option.some.inj hdone).symm⟩
  | base | ipi | rfence | time | hsm | other =>
    rw [hid] at hk
    cases hk

/-- The other extensions read no memory. -/
theorem dispatch_answer (hk : (SbiExt.ofId (regs a7Slot)).legacy = false) :
    ∃ actions error value, sbiDispatch L mem satp env regs = pure (.answer actions regs error value) ∧
      (¬ Handled (regs a7Slot) (regs a6Slot) → SbiExt.ofId (regs a7Slot) ≠ .other →
        error = sbiErrNotSupported ∧ value = 0) := by
  unfold sbiDispatch Handled
  cases hid : SbiExt.ofId (regs a7Slot) with
  | consolePutchar | shutdown | setTimer | clearIpi | sendIpi | remoteFence kind =>
    rw [hid] at hk
    cases hk
  | base =>
    refine ⟨[], (handleBaseExtension env regs (regs a6Slot)).regs a0Slot, (handleBaseExtension env regs (regs a6Slot)).regs a1Slot, ?_, fun h => absurd trivial h⟩
    simp only
    unfold handleBaseExtension
    split <;> rfl
  | ipi =>
    by_cases hfid : regs a6Slot = 0
    · exact ⟨_, _, _, if_pos hfid, fun h => absurd hfid h⟩
    · exact ⟨_, _, _, if_neg hfid, fun _ _ => ⟨rfl, rfl⟩⟩
  | time =>
    by_cases hfid : regs a6Slot = 0
    · exact ⟨_, _, _, if_pos hfid, fun h => absurd hfid h⟩
    · exact ⟨_, _, _, if_neg hfid, fun _ _ => ⟨rfl, rfl⟩⟩
  | rfence =>
    simp only
    cases hkind : rfenceKindFromFid (regs a6Slot) with
    | none => exact ⟨_, _, _, rfl, fun _ _ => ⟨rfl, rfl⟩⟩
    | some kind => exact ⟨_, _, _, rfl, fun h => absurd rfl h⟩
  | hsm => exact ⟨_, _, _, rfl, fun _ _ => ⟨rfl, rfl⟩⟩
  | other => exact ⟨_, _, _, rfl, fun _ h => absurd rfl h⟩

/-- A call returns exactly where its mask can be read. -/
theorem dispatch_returns : (sbiDispatch L mem satp env regs).result.isSome ↔
    (readsMask (regs a7Slot) = true → regs a0Slot ≠ 0 →
      WordInside allMemory L mem satp (regs a0Slot)) := by
  rw [readsMask_eq]
  unfold sbiDispatch
  have hmask : (legacyMask L mem satp env.count (regs a0Slot)).result.isSome ↔
      (regs a0Slot ≠ 0 → WordInside allMemory L mem satp (regs a0Slot)) := legacyMask_returns
  cases hid : SbiExt.ofId (regs a7Slot) with
  | sendIpi | remoteFence kind =>
    refine (bind_isSome fun mask => ?_).trans (hmask.trans (imp_iff_right rfl).symm)
    cases mask <;> rfl
  | consolePutchar | shutdown | setTimer | clearIpi | base | hsm | other =>
    exact iff_of_true rfl fun h => by cases h
  | ipi | time =>
    refine iff_of_true ?_ fun h => by cases h
    simp only
    split <;> rfl
  | rfence =>
    refine iff_of_true ?_ fun h => by cases h
    simp only
    cases rfenceKindFromFid (regs a6Slot) <;> rfl

end

/-! ## The contract -/

section

variable {L : Layout} {mem : Nat → BitVec 8} {satp : BitVec 64} {env : SbiEnv}
  {regs : CpuUserRegs} {done : SbiDone}

/-- The step of `sepc` at the end of the handler. -/
def SbiDone.final (done : SbiDone) : CpuUserRegs := done.regs.setSepc (done.regs.sepc + 4)

theorem handler_some (h : (sbiDispatch L mem satp env regs).result = some done) :
    (riscvSbiHandleVsEcall L mem satp env regs).result = some ⟨done.actions, done.final⟩ :=
  result_bind h

theorem handler_result {out : SbiDone}
    (h : (riscvSbiHandleVsEcall L mem satp env regs).result = some out) :
    ∃ done, (sbiDispatch L mem satp env regs).result = some done ∧ out.regs = done.final := by
  obtain ⟨done, hdone, hout⟩ := bind_result_eq_some h
  refine ⟨done, hdone, ?_⟩
  rw [← Option.some.inj hout]
  rfl

theorem final_other {i : Fin 36} (hi : i ≠ 0) : done.final i = done.regs i :=
  CpuUserRegs.setSepc_ne _ _ hi

theorem final_sepc : done.final.sepc = done.regs.sepc + 4 := CpuUserRegs.sepc_setSepc _ _

theorem legacy_regs {actions : List SbiAction} {value : BitVec 64} {i : Fin 36} (hi : i ≠ a0Slot) :
    (SbiDone.legacy actions regs value).regs i = regs i :=
  CpuUserRegs.set_ne _ _ hi

theorem answer_regs {actions : List SbiAction} {error value : BitVec 64} {i : Fin 36}
    (h0 : i ≠ a0Slot) (h1 : i ≠ a1Slot) :
    (SbiDone.answer actions regs error value).regs i = regs i :=
  (CpuUserRegs.set_ne _ _ h1).trans (CpuUserRegs.set_ne _ _ h0)

theorem answer_a0 {actions : List SbiAction} {error value : BitVec 64} :
    (SbiDone.answer actions regs error value).regs a0Slot = error := by
  change (regs.set a0Slot error).set a1Slot value a0Slot = error
  rw [CpuUserRegs.set_ne _ _ (by decide), CpuUserRegs.set_same]

theorem answer_a1 {actions : List SbiAction} {error value : BitVec 64} :
    (SbiDone.answer actions regs error value).regs a1Slot = value := by
  change (regs.set a0Slot error).set a1Slot value a1Slot = value
  rw [CpuUserRegs.set_same]

/-- A call changes `a0` and `a1` only, before its step of `sepc`. -/
theorem dispatch_frame (h : (sbiDispatch L mem satp env regs).result = some done) {i : Fin 36}
    (h0 : i ≠ a0Slot) (h1 : i ≠ a1Slot) : done.regs i = regs i := by
  cases hk : (SbiExt.ofId (regs a7Slot)).legacy with
  | true =>
    obtain ⟨actions, value, rfl⟩ := dispatch_legacy hk h
    exact legacy_regs h0
  | false =>
    obtain ⟨actions, error, value, heq, -⟩ := dispatch_answer hk
    rw [heq] at h
    rw [← Option.some.inj h]
    exact answer_regs h0 h1

theorem final_frame (h : (sbiDispatch L mem satp env regs).result = some done) :
    (∀ i, i ≠ 0 → i ≠ a0Slot → i ≠ a1Slot → done.final i = regs i) ∧
      done.final.sepc = regs.sepc + 4 := by
  refine ⟨fun i hi h0 h1 => ?_, ?_⟩
  · rw [final_other hi, dispatch_frame h h0 h1]
  · rw [final_sepc]
    exact congrArg (· + 4) (dispatch_frame h (i := 0) (by decide) (by decide))

theorem handled_of_legacy {ext fid : BitVec 64} (h : (SbiExt.ofId ext).legacy = true) :
    Handled ext fid := by
  unfold Handled
  cases hid : SbiExt.ofId ext <;> simp_all [SbiExt.legacy]

theorem ofId_base : SbiExt.ofId sbiExtBase = .base := by decide +kernel

theorem dispatch_probe (hbase : regs a7Slot = sbiExtBase)
    (hprobe : regs a6Slot = sbiExtBaseProbeExt)
    (h : (sbiDispatch L mem satp env regs).result = some done) :
    done = .answer [] regs sbiSuccess
      (if riscvSbiExtensionSupported (regs a0Slot) then 1 else 0) := by
  unfold sbiDispatch at h
  rw [hbase, ofId_base] at h
  simp only [hprobe, handleBaseExtension, if_true, result_pure, Option.some.injEq] at h
  exact h.symm

/-- A legacy call keeps the convention. -/
theorem legacy_contract (hk : (SbiExt.ofId (regs a7Slot)).legacy = true)
    (h : (sbiDispatch L mem satp env regs).result = some done) : SbiContract regs done.final := by
  obtain ⟨hframe, hsepc⟩ := final_frame h
  obtain ⟨actions, value, rfl⟩ := dispatch_legacy hk h
  refine ⟨hframe, hsepc, fun _ => ?_, fun hno => ?_, fun hbase _ => ?_⟩
  · rw [final_other (by decide), legacy_regs (by decide)]
  · exact absurd (handled_of_legacy hk) hno
  · rw [hbase, ofId_base] at hk
    cases hk

/-- So does another call with a case, if what it probes is not legacy. -/
theorem answer_contract (hk : (SbiExt.ofId (regs a7Slot)).legacy = false)
    (hserved : SbiServed L mem satp regs)
    (h : (sbiDispatch L mem satp env regs).result = some done) : SbiContract regs done.final := by
  obtain ⟨hframe, hsepc⟩ := final_frame h
  obtain ⟨actions, error, value, heq, hno⟩ := dispatch_answer hk
  have hdone : done = .answer actions regs error value := by
    rw [heq] at h
    exact (Option.some.inj h).symm
  refine ⟨hframe, hsepc, fun hlow => ?_, fun hmissing => ?_, fun hbase hprobe => ?_⟩
  · rw [(legacy_iff hserved.known).1 hlow] at hk
    cases hk
  · obtain ⟨herror, hvalue⟩ := hno hmissing hserved.known
    rw [final_other (by decide), final_other (by decide), hdone, answer_a0, answer_a1]
    exact ⟨herror, hvalue⟩
  · rw [final_other (by decide), final_other (by decide), dispatch_probe hbase hprobe h, answer_a0,
      answer_a1]
    refine ⟨rfl, Iff.trans ?_ (probe_iff.2 (hserved.probed hbase hprobe))⟩
    cases riscvSbiExtensionSupported (regs a0Slot) <;> decide

end

/-- Exactly the served calls keep the calling convention. -/
theorem sbi_contract_exact (L : Layout) (mem : Nat → BitVec 8) (satp : BitVec 64) (env : SbiEnv)
    (regs : CpuUserRegs) :
    (∃ out, (riscvSbiHandleVsEcall L mem satp env regs).result = some out ∧
      SbiContract regs out.regs) ↔ SbiServed L mem satp regs := by
  constructor
  · rintro ⟨out, hout, hcontract⟩
    obtain ⟨done, hdone, hfinal⟩ := handler_result hout
    rw [hfinal] at hcontract
    refine ⟨fun hother => ?_, fun hbase hprobe => ?_,
      dispatch_returns.1 (Option.isSome_of_eq_some hdone)⟩
    · -- the default case answers `SBI_ERR_FAILED`
      have hdefault : done = .answer [] regs sbiErrFailed 0 := by
        unfold sbiDispatch at hdone
        rw [hother] at hdone
        exact (Option.some.inj hdone).symm
      have hno : ¬ Handled (regs a7Slot) (regs a6Slot) := by
        unfold Handled
        rw [hother]
        exact id
      have herror := (hcontract.unsupported hno).1
      rw [final_other (by decide), hdefault, answer_a0] at herror
      exact absurd herror (by decide)
    · have hone := (hcontract.probe hbase hprobe).2
      rw [final_other (by decide), dispatch_probe hbase hprobe hdone, answer_a1] at hone
      refine probe_iff.1 (Iff.trans ?_ hone)
      cases riscvSbiExtensionSupported (regs a0Slot) <;> decide
  · intro hserved
    obtain ⟨done, hdone⟩ := Option.isSome_iff_exists.1 (dispatch_returns.2 hserved.mask)
    refine ⟨⟨done.actions, done.final⟩, handler_some hdone, ?_⟩
    cases hk : (SbiExt.ofId (regs a7Slot)).legacy with
    | true => exact legacy_contract hk hdone
    | false => exact answer_contract hk hserved hdone

/-- `CONSOLE_GETCHAR` gets `SBI_ERR_FAILED`, and loses its `a1`. -/
theorem getchar_not_supported :
    ¬ ∃ out, (riscvSbiHandleVsEcall imageLayout (fun _ => 0) 0
        ⟨1, fun _ => none, 0, 1, fun _ => false, fun _ _ => (0, 0)⟩ (numbered.set a7Slot 2)).result =
          some out ∧ SbiContract (numbered.set a7Slot 2) out.regs := by
  rintro ⟨out, hout, hcontract⟩
  have ha1 : (riscvSbiHandleVsEcall imageLayout (fun _ => 0) 0
      ⟨1, fun _ => none, 0, 1, fun _ => false, fun _ _ => (0, 0)⟩ (numbered.set a7Slot 2)).result.map
        (fun out => out.regs a1Slot) = some 0 := by decide +kernel
  rw [hout] at ha1
  have hzero : out.regs a1Slot = 0 := Option.some.inj ha1
  have hkept := hcontract.legacy (by decide +kernel)
  rw [hzero] at hkept
  exact absurd hkept (by decide +kernel)

end HyperCore.Riscv64
