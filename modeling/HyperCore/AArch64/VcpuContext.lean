import HyperCore.Vgic.Virq

/-!
# The context switch on AArch64

`__el2_switch_to` stores the registers of the outgoing vCPU in `struct arch_vcpu` and loads
those of the incoming one. Most fields are as wide as the register; `esr`, `afsr0`, `afsr1`,
`cpacr`, `contextidr` and `csselr` are `uint32_t`, so that of these registers the low half
comes back (`SysRegs.narrowed`).

Registers are cells that keep what is written to them. VMPIDR is not read at the switch: it
comes from `arch.vmpidr`.
-/

namespace HyperCore.AArch64

open HyperCore.Vgic

/-- The EL0 and EL1 registers that `vcpu_context_save` reads. -/
@[ext]
structure SysRegs where
  csselrEl1 : BitVec 64
  cpacrEl1 : BitVec 64
  contextidrEl1 : BitVec 64
  tpidrEl0 : BitVec 64
  tpidrroEl0 : BitVec 64
  tpidrEl1 : BitVec 64
  cntkctlEl1 : BitVec 64
  cntvCtlEl0 : BitVec 64
  cntvCvalEl0 : BitVec 64
  cntpCtlEl0 : BitVec 64
  cntpCvalEl0 : BitVec 64
  parEl1 : BitVec 64
  iccPmrEl1 : BitVec 64
  iccCtlrEl1 : BitVec 64
  iccIgrpen1El1 : BitVec 64
  iccBpr1El1 : BitVec 64
  iccSreEl1 : BitVec 64
  sctlrEl1 : BitVec 64
  vbarEl1 : BitVec 64
  tcrEl1 : BitVec 64
  ttbr0El1 : BitVec 64
  ttbr1El1 : BitVec 64
  mairEl1 : BitVec 64
  amairEl1 : BitVec 64
  farEl1 : BitVec 64
  esrEl1 : BitVec 64
  afsr0El1 : BitVec 64
  afsr1El1 : BitVec 64
  spsrEl1 : BitVec 64
  elrEl1 : BitVec 64
  spEl0 : BitVec 64
  spEl1 : BitVec 64

/-- `fpsimd`, in the registers and in `struct arch_vcpu` alike. -/
structure Fpsimd where
  q : Fin 32 → BitVec 128
  fpsr : BitVec 64
  fpcr : BitVec 64

/-- The frame on the EL2 stack; `x` is x0 to x28, `fp` and `lr`. -/
structure CpuUserRegs where
  x : Fin 31 → BitVec 64
  sp : BitVec 64
  pc : BitVec 64
  cpsr : BitVec 64

structure Machine where
  sys : SysRegs
  fpsimd : Fpsimd
  midrEl1 : BitVec 64
  vmpidrEl2 : BitVec 64
  vpidrEl2 : BitVec 64
  ich : IchRegs
  irqRegs : CpuUserRegs

structure VTimer where
  ctlr : BitVec 64
  cval : BitVec 64

/-- The `gicc` field of `struct arch_vcpu`. -/
structure Gicc where
  pmr : BitVec 64
  ctlr : BitVec 64
  igrpen1 : BitVec 64
  bpr1 : BitVec 64
  sreEl1 : BitVec 64
  initialized : Bool

structure ArchVcpu where
  stack : BitVec 64
  far : BitVec 64
  esr : BitVec 32
  afsr0 : BitVec 32
  afsr1 : BitVec 32
  vbar : BitVec 64
  ttbcr : BitVec 64
  ttbr0 : BitVec 64
  ttbr1 : BitVec 64
  par : BitVec 64
  mair : BitVec 64
  amair : BitVec 64
  sctlrEl1 : BitVec 64
  cpacr : BitVec 32
  contextidr : BitVec 32
  spsrEl1 : BitVec 64
  elrEl1 : BitVec 64
  spEl0 : BitVec 64
  tpidrEl0 : BitVec 64
  tpidrEl1 : BitVec 64
  tpidrroEl0 : BitVec 64
  csselr : BitVec 32
  vmpidr : BitVec 64
  fpsimd : Fpsimd
  cntkctl : BitVec 64
  physTimer : VTimer
  virtTimer : VTimer
  gicc : Gicc
  vgic : VgicContext

structure Vcpu where
  arch : ArchVcpu
  regs : CpuUserRegs

structure Task where
  vcpu : Vcpu
  queue : VirqQueue

/-- `CNTx_CTL_ENABLE` -/
def cntxCtlEnable : BitVec 64 := 1

/-- `vcpu_context_save` -/
def vcpuContextSave (arch : ArchVcpu) (m : Machine) : ArchVcpu × Machine :=
  let r := m.sys
  let arch :=
    { arch with
      csselr := r.csselrEl1.setWidth 32
      fpsimd := m.fpsimd
      cpacr := r.cpacrEl1.setWidth 32
      contextidr := r.contextidrEl1.setWidth 32
      tpidrEl0 := r.tpidrEl0
      tpidrroEl0 := r.tpidrroEl0
      tpidrEl1 := r.tpidrEl1
      cntkctl := r.cntkctlEl1
      virtTimer := ⟨r.cntvCtlEl0, r.cntvCvalEl0⟩
      physTimer := ⟨r.cntpCtlEl0, r.cntpCvalEl0⟩
      par := r.parEl1
      gicc :=
        { pmr := r.iccPmrEl1
          ctlr := r.iccCtlrEl1
          igrpen1 := r.iccIgrpen1El1
          bpr1 := r.iccBpr1El1
          sreEl1 := r.iccSreEl1
          initialized := true }
      sctlrEl1 := r.sctlrEl1
      vbar := r.vbarEl1
      ttbcr := r.tcrEl1
      ttbr0 := r.ttbr0El1
      ttbr1 := r.ttbr1El1
      mair := r.mairEl1
      amair := r.amairEl1
      far := r.farEl1
      esr := r.esrEl1.setWidth 32
      afsr0 := r.afsr0El1.setWidth 32
      afsr1 := r.afsr1El1.setWidth 32
      spsrEl1 := r.spsrEl1
      elrEl1 := r.elrEl1
      spEl0 := r.spEl0
      stack := r.spEl1 }
  (arch, { m with sys := { r with cntvCtlEl0 := arch.virtTimer.ctlr &&& ~~~cntxCtlEnable } })

/-- `vcpu_context_restore` -/
def vcpuContextRestore (arch : ArchVcpu) (m : Machine) : Machine :=
  let sys :=
    { m.sys with
      spsrEl1 := arch.spsrEl1
      elrEl1 := arch.elrEl1
      spEl0 := arch.spEl0
      spEl1 := arch.stack
      cpacrEl1 := arch.cpacr.setWidth 64
      sctlrEl1 := arch.sctlrEl1
      cntvCvalEl0 := arch.virtTimer.cval
      cntvCtlEl0 := arch.virtTimer.ctlr
      cntpCvalEl0 := arch.physTimer.cval
      cntpCtlEl0 := arch.physTimer.ctlr
      parEl1 := arch.par
      ttbr0El1 := arch.ttbr0
      ttbr1El1 := arch.ttbr1
      tcrEl1 := arch.ttbcr
      mairEl1 := arch.mair
      amairEl1 := arch.amair
      vbarEl1 := arch.vbar
      contextidrEl1 := arch.contextidr.setWidth 64
      tpidrEl0 := arch.tpidrEl0
      tpidrroEl0 := arch.tpidrroEl0
      tpidrEl1 := arch.tpidrEl1
      cntkctlEl1 := arch.cntkctl
      farEl1 := arch.far
      esrEl1 := arch.esr.setWidth 64
      afsr0El1 := arch.afsr0.setWidth 64
      afsr1El1 := arch.afsr1.setWidth 64
      csselrEl1 := arch.csselr.setWidth 64 }
  let sys :=
    if arch.gicc.initialized then
      { sys with
        iccPmrEl1 := arch.gicc.pmr
        iccCtlrEl1 := arch.gicc.ctlr
        iccBpr1El1 := arch.gicc.bpr1
        iccIgrpen1El1 := arch.gicc.igrpen1
        iccSreEl1 := arch.gicc.sreEl1 }
    else sys
  { m with fpsimd := arch.fpsimd, sys := sys, vmpidrEl2 := arch.vmpidr, vpidrEl2 := m.midrEl1 }

/-- `arch_regs_restore` -/
def archRegsRestore (m : Machine) (vcpu : Vcpu) : Vcpu × Machine :=
  let vcpu := { vcpu with regs.sp := m.irqRegs.sp }
  (vcpu, { m with irqRegs := vcpu.regs })

/-- The first part of `__el2_switch_to`: the outgoing vCPU is saved. -/
def Vcpu.save (lrCount : Nat) (vcpu : Vcpu) (m : Machine) : Vcpu × Machine :=
  let vgic := gicVcpuSave lrCount m.ich vcpu.arch.vgic
  let (arch, m') := vcpuContextSave { vcpu.arch with vgic := vgic } m
  (⟨arch, m.irqRegs⟩, m')

/-- The second part: the incoming vCPU is loaded, and its pending interrupts are flushed. -/
def Task.load (lrCount : Nat) (next : Task) (m : Machine) : Task × Machine :=
  let m := vcpuContextRestore next.vcpu.arch m
  let m := { m with ich := gicVcpuRestore lrCount next.vcpu.arch.vgic m.ich }
  let (vcpu, m) := archRegsRestore m next.vcpu
  let (queue, lr) := gicVcpuFlushLr lrCount next.queue m.ich.lr
  (⟨vcpu, queue⟩, { m with ich := { m.ich with lr := lr } })

/-- `__el2_switch_to`, for two different tasks. -/
def el2SwitchTo (lrCount : Nat) (cur next : Task) (m : Machine) : Task × Task × Machine :=
  let (vcpu, m) := cur.vcpu.save lrCount m
  let (next, m) := next.load lrCount m
  ({ cur with vcpu := vcpu }, next, m)

/-! ## What comes back -/

/-- What a `uint32_t` field keeps of a register. -/
def narrow (x : BitVec 64) : BitVec 64 := (x.setWidth 32).setWidth 64

theorem narrow_eq_iff (x : BitVec 64) : narrow x = x ↔ x.toNat < 2 ^ 32 := by
  have hnat : (narrow x).toNat = x.toNat % 2 ^ 32 := by
    rw [narrow, BitVec.toNat_setWidth, BitVec.toNat_setWidth]
    exact Nat.mod_eq_of_lt ((Nat.mod_lt _ (by decide)).trans (by decide))
  constructor
  · intro h
    rw [← h, hnat]
    exact Nat.mod_lt _ (by decide)
  · intro h
    exact BitVec.eq_of_toNat_eq (hnat.trans (Nat.mod_eq_of_lt h))

/-- The registers after their way through `struct arch_vcpu`. -/
def SysRegs.narrowed (r : SysRegs) : SysRegs :=
  { r with
    csselrEl1 := narrow r.csselrEl1
    cpacrEl1 := narrow r.cpacrEl1
    contextidrEl1 := narrow r.contextidrEl1
    esrEl1 := narrow r.esrEl1
    afsr0El1 := narrow r.afsr0El1
    afsr1El1 := narrow r.afsr1El1 }

/-- The upper halves of the six registers with a narrow field are zero. -/
structure SysRegs.Fits (r : SysRegs) : Prop where
  csselr : r.csselrEl1.toNat < 2 ^ 32
  cpacr : r.cpacrEl1.toNat < 2 ^ 32
  contextidr : r.contextidrEl1.toNat < 2 ^ 32
  esr : r.esrEl1.toNat < 2 ^ 32
  afsr0 : r.afsr0El1.toNat < 2 ^ 32
  afsr1 : r.afsr1El1.toNat < 2 ^ 32

theorem SysRegs.narrowed_eq_iff (r : SysRegs) : r.narrowed = r ↔ r.Fits := by
  constructor
  · intro h
    have hfield : ∀ f : SysRegs → BitVec 64, f r.narrowed = f r := fun f => congrArg f h
    exact ⟨(narrow_eq_iff _).mp (hfield csselrEl1), (narrow_eq_iff _).mp (hfield cpacrEl1),
      (narrow_eq_iff _).mp (hfield contextidrEl1), (narrow_eq_iff _).mp (hfield esrEl1),
      (narrow_eq_iff _).mp (hfield afsr0El1), (narrow_eq_iff _).mp (hfield afsr1El1)⟩
  · rintro ⟨h₁, h₂, h₃, h₄, h₅, h₆⟩
    rw [narrowed, (narrow_eq_iff _).mpr h₁, (narrow_eq_iff _).mpr h₂, (narrow_eq_iff _).mpr h₃,
      (narrow_eq_iff _).mpr h₄, (narrow_eq_iff _).mpr h₅, (narrow_eq_iff _).mpr h₆]

/-- A gives way to B, B runs, and A comes back; `q` is A's queue by then. -/
def comeBack (lrCount : Nat) (A B : Task) (q : VirqQueue) (run : Machine → Machine)
    (m : Machine) : Machine :=
  let (A, B, m) := el2SwitchTo lrCount A B m
  (el2SwitchTo lrCount B { A with queue := q } (run m)).2.2

/-- The same in the eyes of the vCPU that is running, list registers apart. -/
structure SameRegisters (m m' : Machine) : Prop where
  sys : m'.sys = m.sys
  fpsimd : m'.fpsimd = m.fpsimd
  gprs : m'.irqRegs.x = m.irqRegs.x
  pc : m'.irqRegs.pc = m.irqRegs.pc
  cpsr : m'.irqRegs.cpsr = m.irqRegs.cpsr
  vmpidr : m'.vmpidrEl2 = m.vmpidrEl2
  vmcr : m'.ich.vmcr = m.ich.vmcr

section

variable {lrCount : Nat} {A B : Task} {q : VirqQueue} {run : Machine → Machine} {m : Machine}

/-- The state in which A comes back, list registers apart. -/
theorem comeBack_registers : SameRegisters
    { m with sys := m.sys.narrowed, vmpidrEl2 := A.vcpu.arch.vmpidr }
    (comeBack lrCount A B q run m) :=
  ⟨rfl, rfl, rfl, rfl, rfl, rfl, rfl⟩

theorem gicVcpuRestore_save_lr (hw hw' : IchRegs) (ctx : VgicContext) {i : Nat}
    (hi : i < lrCount) :
    (gicVcpuRestore lrCount (gicVcpuSave lrCount hw ctx) hw').lr i = hw.lr i := by
  change copyFirst (if lrCount < lrCount then lrCount else lrCount) (copyFirst lrCount hw.lr ctx.lr)
    _ i = hw.lr i
  rw [if_neg (Nat.lt_irrefl lrCount), copyFirst, if_pos hi, copyFirst, if_pos hi]

/-- The bank that `gic_vcpu_restore` leaves is the saved one, in the implemented registers. -/
theorem comeBack_lr (lrCount : Nat) (A B : Task) (q : VirqQueue) (run : Machine → Machine)
    (m : Machine) : ∃ bank : Nat → BitVec 64, (∀ i < lrCount, bank i = m.ich.lr i) ∧
      (comeBack lrCount A B q run m).ich.lr = (gicVcpuFlushLr lrCount q bank).2 :=
  ⟨_, fun _ hi => gicVcpuRestore_save_lr _ _ _ hi, rfl⟩

/-- A list register holds what it held, or was free and holds a pending interrupt. -/
theorem comeBack_listRegister {i : Nat} (hi : i < lrCount) :
    (comeBack lrCount A B q run m).ich.lr i = m.ich.lr i ∨
      live (m.ich.lr i) = false ∧ ∃ virq ∈ q.toList,
        (comeBack lrCount A B q run m).ich.lr i = lrWord virq := by
  obtain ⟨bank, hbank, hlr⟩ := comeBack_lr lrCount A B q run m
  rw [hlr, ← hbank i hi]
  exact gicVcpuFlushLr_lr lrCount q bank i

theorem comeBack_independent (run' : Machine → Machine) {i : Nat} (hi : i < lrCount) :
    (comeBack lrCount A B q run' m).ich.lr i = (comeBack lrCount A B q run m).ich.lr i := by
  obtain ⟨bank, hbank, hlr⟩ := comeBack_lr lrCount A B q run m
  obtain ⟨bank', hbank', hlr'⟩ := comeBack_lr lrCount A B q run' m
  rw [hlr, hlr']
  exact flushLoop_congr lrCount _ (fun j hj => (hbank' j hj).trans (hbank j hj).symm) i hi

end

/-- ICH_VTR_EL2, whose ListRegs field is one less than the number of list registers. -/
structure IchVtr where
  value : BitVec 64
  listRegs_lt : (value &&& 0x1f).toNat < 16

/-- The number of implemented list registers. -/
def IchVtr.lrs (vtr : IchVtr) : Nat := (vtr.value &&& 0x1f).toNat + 1

/-- The code counts all of them. -/
theorem IchVtr.gicEmulLrCount_eq (vtr : IchVtr) : gicEmulLrCount vtr.value = vtr.lrs := by
  have hlt := vtr.listRegs_lt
  change (if vtr.lrs < 16 then vtr.lrs else 16) = vtr.lrs
  split
  · rfl
  · next hge => exact Nat.le_antisymm (Nat.not_lt.mp hge) hlt

/-- After A has given way to B and has come back, it has its registers, its list registers
are as they were but for free ones that hold pending interrupts, and nothing of this
depends on what B did. -/
structure GivenBack (vtr : IchVtr) (A B : Task) (m : Machine) : Prop where
  registers : ∀ q run, SameRegisters m (comeBack (gicEmulLrCount vtr.value) A B q run m)
  listRegisters : ∀ q run, ∀ i < vtr.lrs,
    (comeBack (gicEmulLrCount vtr.value) A B q run m).ich.lr i = m.ich.lr i ∨
      live (m.ich.lr i) = false ∧ ∃ virq ∈ q.toList,
        (comeBack (gicEmulLrCount vtr.value) A B q run m).ich.lr i = lrWord virq
  independent : ∀ q run run',
    SameRegisters (comeBack (gicEmulLrCount vtr.value) A B q run m)
      (comeBack (gicEmulLrCount vtr.value) A B q run' m) ∧
    ∀ i < vtr.lrs, (comeBack (gicEmulLrCount vtr.value) A B q run' m).ich.lr i =
      (comeBack (gicEmulLrCount vtr.value) A B q run m).ich.lr i

section

variable {vtr : IchVtr} {A B : Task} {m : Machine}

/-- Where A finds its registers again, the six narrow fields were wide enough. -/
theorem givenBack_iff :
    GivenBack vtr A B m ↔ m.sys.Fits ∧ m.vmpidrEl2 = A.vcpu.arch.vmpidr := by
  constructor
  · intro h
    have hback := h.registers A.queue id
    exact ⟨m.sys.narrowed_eq_iff.mp hback.sys, hback.vmpidr.symm⟩
  · rintro ⟨hfits, hmpidr⟩
    refine ⟨fun q run => ?_, fun q run i hi => ?_, fun q run run' => ⟨?_, fun i hi => ?_⟩⟩
    · exact ⟨m.sys.narrowed_eq_iff.mpr hfits, rfl, rfl, rfl, rfl, hmpidr.symm, rfl⟩
    · exact comeBack_listRegister (vtr.gicEmulLrCount_eq ▸ hi)
    · exact ⟨rfl, rfl, rfl, rfl, rfl, rfl, rfl⟩
    · exact comeBack_independent run' (vtr.gicEmulLrCount_eq ▸ hi)

end

/-- All registers 0 but ESR_EL1, of which a bit of the upper half is set. -/
def wideEsr : Machine where
  sys :=
    ⟨0, 0, 0, 0, 0, 0, 0, 0, 0, 0, 0, 0, 0, 0, 0, 0, 0, 0, 0, 0, 0, 0, 0, 0, 0, 1 <<< 32, 0, 0, 0,
      0, 0, 0⟩
  fpsimd := ⟨fun _ => 0, 0, 0⟩
  midrEl1 := 0
  vmpidrEl2 := 0
  vpidrEl2 := 0
  ich := ⟨0, 0, fun _ => 0, fun _ => 0, fun _ => 0⟩
  irqRegs := ⟨fun _ => 0, 0, 0, 0⟩

/-- A task whose fields are all 0. -/
def zeroTask : Task where
  vcpu :=
    { arch :=
        ⟨0, 0, 0, 0, 0, 0, 0, 0, 0, 0, 0, 0, 0, 0, 0, 0, 0, 0, 0, 0, 0, 0, 0, ⟨fun _ => 0, 0, 0⟩, 0,
          ⟨0, 0⟩, ⟨0, 0⟩, ⟨0, 0, 0, 0, 0, false⟩,
          ⟨0, 0, fun _ => 0, fun _ => 0, fun _ => 0, 0, false⟩⟩
      regs := ⟨fun _ => 0, 0, 0, 0⟩ }
  queue := ⟨fun _ => 0, 0⟩

/-- A switch loses the upper half of ESR_EL1. -/
theorem esr_truncated : ∃ (vtr : IchVtr) (A B : Task) (m : Machine),
    m.vmpidrEl2 = A.vcpu.arch.vmpidr ∧ ¬ GivenBack vtr A B m := by
  refine ⟨⟨3, by decide⟩, zeroTask, { zeroTask with vcpu.arch.vmpidr := 1 }, wideEsr, rfl,
    fun h => ?_⟩
  have hesr : narrow (1 <<< 32) = 1 <<< 32 :=
    congrArg SysRegs.esrEl1 (h.registers zeroTask.queue id).sys
  exact absurd hesr (by decide)

end HyperCore.AArch64
