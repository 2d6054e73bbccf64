import Mathlib

/-!
# The FP and vector context of a vCPU

`vcpu_context_save` stores the FP registers only when the guest's `vsstatus.FS` reads Dirty,
and the vector registers only when `vsstatus.VS` does; `vcpu_context_restore` loads them
under the same test on the stored value. The two fields are the guest's own: it sets them to
Clean when it has saved the registers for itself, while the registers still hold its values.

| `FS` of A | `FS` of B | at B's entry       | after the return to A   |
|-----------|-----------|--------------------|-------------------------|
| Dirty     | Dirty     | B's registers      | A's registers           |
| Dirty     | other     | A's registers      | A's registers           |
| other     | Dirty     | B's registers      | what B has left         |
| other     | other     | A's registers      | what B has left         |

The same holds for `VS`, where in addition `vsetvl` comes last in `vector_csr_restore` and
clears `vstart`. `isolated_iff` is the exact condition.
-/

namespace HyperCore.Riscv64

/-! ## The hart -/

/-- `vtype` with only `vill` set. -/
def vill : BitVec 64 := 1 <<< 63

/-- `e8, m1, ta, ma` -/
def e8m1 : BitVec 64 := 0xc0

/-- What is fixed about the vector unit of a hart: VLEN in bytes, and the VLMAX of each
`vtype` that is supported. -/
structure VectorUnit where
  vlenb : Nat
  vlmax : BitVec 64 → Option Nat
  vlenb_pos : 0 < vlenb
  vlenb_le : vlenb ≤ 8192
  vlmax_e8m1 : vlmax e8m1 = some vlenb
  vlmax_vill : vlmax vill = none

/-- A `vl` is at most the VLMAX of `vtype`, and 0 while `vill` is set. -/
def VectorUnit.Legal (u : VectorUnit) (vl vtype : BitVec 64) : Prop :=
  (∃ n, u.vlmax vtype = some n ∧ vl.toNat ≤ n) ∨ vtype = vill ∧ vl = 0

@[ext]
structure VSetting (u : VectorUnit) where
  vl : BitVec 64
  vtype : BitVec 64
  legal : u.Legal vl vtype

/-- What `vsetvl` makes of a requested length and type. -/
def VectorUnit.vsetvl (u : VectorUnit) (avl vtype : BitVec 64) : VSetting u :=
  match h : u.vlmax vtype with
  | some n =>
    ⟨BitVec.ofNat 64 (min avl.toNat n), vtype, .inl ⟨n, h, by
      rw [BitVec.toNat_ofNat]
      exact (Nat.mod_le _ _).trans (min_le_right _ _)⟩⟩
  | none => ⟨0, vill, .inr ⟨rfl, rfl⟩⟩

@[ext]
structure Fpu where
  f : Fin 32 → BitVec 64
  fcsr : BitVec 8

/-- `vcsr` is `vxrm` above `vxsat`. -/
@[ext]
structure VectorRegs (u : VectorUnit) where
  v : Fin 32 → Fin u.vlenb → BitVec 8
  vstart : BitVec 64
  vxsat : BitVec 1
  vxrm : BitVec 2
  setting : VSetting u

def VectorRegs.vcsr {u : VectorUnit} (r : VectorRegs u) : BitVec 3 := r.vxrm ++ r.vxsat

/-- The VS-mode CSRs that a vCPU keeps while it is not running. -/
structure VsCsrs where
  vsstatus : BitVec 64
  vsie : BitVec 64
  vsepc : BitVec 64
  vstvec : BitVec 64
  vsscratch : BitVec 64
  vscause : BitVec 64
  vstval : BitVec 64
  vsatp : BitVec 64

structure Hart (u : VectorUnit) where
  sstatus : BitVec 64
  hstatus : BitVec 64
  hie : BitVec 64
  hvip : BitVec 64
  hedeleg : BitVec 64
  hideleg : BitVec 64
  vs : VsCsrs
  fpu : Fpu
  vec : VectorRegs u

/-! ## The vCPU -/

def sstatusFs : BitVec 64 := 0x6000
def sstatusFsDirty : BitVec 64 := 0x6000
def sstatusFsInitial : BitVec 64 := 0x2000
def sstatusVs : BitVec 64 := 0x600
def sstatusVsDirty : BitVec 64 := 0x600
def sstatusVsInitial : BitVec 64 := 0x200
def sstatusSpie : BitVec 64 := 0x20

/-- `HSTATUS_VCPU_MASK`: SPV and SPVP -/
def hstatusVcpuMask : BitVec 64 := 0x180

/-- The fields of `cpu_arch` that the context switch reads and writes. `vregs` is the memory
at the pointer, by byte. -/
structure Vcpu where
  hstatus : BitVec 64
  hie : BitVec 64
  vs : VsCsrs
  f : Fin 32 → BitVec 64
  fcsr : BitVec 64
  vstart : BitVec 64
  vxsat : BitVec 64
  vxrm : BitVec 64
  vcsr : BitVec 64
  vl : BitVec 64
  vtype : BitVec 64
  vlenb : BitVec 64
  vregs : Option (Nat → BitVec 8)
  vregsSize : BitVec 64

/-- What `riscv_has_fpu` and `riscv_has_vector` return. -/
structure Features where
  fpu : Bool
  vector : Bool

/-- The context that `create_vcpu` and `arch_vcpu_init` leave. -/
def archVcpuInit (feat : Features) : Vcpu where
  hstatus := hstatusVcpuMask
  hie := 0
  vs :=
    { vsstatus := sstatusSpie ||| (if feat.fpu then sstatusFsInitial else 0) |||
        (if feat.vector then sstatusVsInitial else 0)
      vsie := 0, vsepc := 0, vstvec := 0, vsscratch := 0, vscause := 0, vstval := 0, vsatp := 0 }
  f _ := 0
  fcsr := 0
  vstart := 0
  vxsat := 0
  vxrm := 0
  vcsr := 0
  vl := 0
  vtype := 0
  vlenb := 0
  vregs := none
  vregsSize := 0

def fpuDirty (vsstatus : BitVec 64) : Bool := vsstatus &&& sstatusFs == sstatusFsDirty

def vectorDirty (vsstatus : BitVec 64) : Bool := vsstatus &&& sstatusVs == sstatusVsDirty

section

variable {u : VectorUnit}

/-- Element `k` of `f` is stored from `f`k. -/
def fpuSave (vcpu : Vcpu) (h : Hart u) : Vcpu × Hart u :=
  let oldSstatus := h.sstatus
  let h := { h with sstatus := h.sstatus ||| sstatusFsDirty }
  let vcpu := { vcpu with f := h.fpu.f, fcsr := h.fpu.fcsr.setWidth 64 }
  (vcpu, { h with sstatus := oldSstatus })

def fpuRestore (vcpu : Vcpu) (h : Hart u) : Hart u :=
  let oldSstatus := h.sstatus
  let h := { h with sstatus := h.sstatus ||| sstatusFsDirty }
  let h := { h with fpu := ⟨vcpu.f, vcpu.fcsr.setWidth 8⟩ }
  { h with sstatus := oldSstatus }

/-- `vsetvl` and `vsetvli` clear `vstart`. -/
def Hart.vsetvl (h : Hart u) (avl vtype : BitVec 64) : Hart u :=
  { h with vec := { h.vec with setting := u.vsetvl avl vtype, vstart := 0 } }

/-- `vse8.v` of register `i` to address `t0`: the bytes from `vstart` up to `vl`. -/
def VectorRegs.vse8 (r : VectorRegs u) (mem : Nat → BitVec 8) (i : Fin 32) (t0 : Nat) :
    Nat → BitVec 8 := fun k =>
  if h : t0 + r.vstart.toNat ≤ k ∧ k < t0 + r.setting.vl.toNat ∧ k - t0 < u.vlenb then
    r.v i ⟨k - t0, h.2.2⟩
  else mem k

def VectorRegs.vle8 (r : VectorRegs u) (mem : Nat → BitVec 8) (i : Fin 32) (t0 : Nat) :
    VectorRegs u :=
  { r with
    v := Function.update r.v i fun j =>
      if r.vstart.toNat ≤ j ∧ j < r.setting.vl.toNat then mem (t0 + j) else r.v i j }

/-- `kmalloc` is what the allocator returns: the contents of the new area, or nothing. -/
def vectorRegsSave (kmalloc : Option (Nat → BitVec 8)) (vcpu : Vcpu) (h : Hart u) :
    Vcpu × Hart u :=
  if vcpu.vlenb = 0 then (vcpu, h)
  else
    let size := vcpu.vlenb * 32
    let vcpu :=
      match vcpu.vregs with
      | none => { vcpu with vregs := kmalloc, vregsSize := size }
      | some _ => vcpu
    match vcpu.vregs with
    | none => (vcpu, h)
    | some mem =>
      if vcpu.vregsSize < size then (vcpu, h)
      else
        let h := h.vsetvl vcpu.vlenb e8m1
        let mem := (List.finRange 32).foldl
          (fun mem i => h.vec.vse8 mem i (i * vcpu.vlenb.toNat)) mem
        ({ vcpu with vregs := some mem }, h)

def vectorRegsRestore (vcpu : Vcpu) (h : Hart u) : Hart u :=
  match vcpu.vregs with
  | none => h
  | some mem =>
    if vcpu.vlenb = 0 then h
    else
      let h := h.vsetvl vcpu.vlenb e8m1
      { h with
        vec := (List.finRange 32).foldl (fun r i => r.vle8 mem i (i * vcpu.vlenb.toNat)) h.vec }

def vectorCsrSave (kmalloc : Option (Nat → BitVec 8)) (vcpu : Vcpu) (h : Hart u) :
    Vcpu × Hart u :=
  let oldSstatus := h.sstatus
  let h := { h with sstatus := h.sstatus ||| sstatusVsDirty }
  let vcpu :=
    { vcpu with
      vstart := h.vec.vstart
      vxsat := h.vec.vxsat.setWidth 64
      vxrm := h.vec.vxrm.setWidth 64
      vcsr := h.vec.vcsr.setWidth 64
      vl := h.vec.setting.vl
      vtype := h.vec.setting.vtype
      vlenb := BitVec.ofNat 64 u.vlenb }
  let (vcpu, h) := vectorRegsSave kmalloc vcpu h
  (vcpu, { h with sstatus := oldSstatus })

/-- The writable bits of `vstart` hold the numbers below VLEN. -/
def VectorRegs.writeVstart (r : VectorRegs u) (x : BitVec 64) : VectorRegs u :=
  { r with vstart := BitVec.ofNat 64 (x.toNat % (8 * u.vlenb)) }

def VectorRegs.writeVcsr (r : VectorRegs u) (x : BitVec 64) : VectorRegs u :=
  { r with vxsat := x.setWidth 1, vxrm := x.extractLsb' 1 2 }

def vectorCsrRestore (vcpu : Vcpu) (h : Hart u) : Hart u :=
  let oldSstatus := h.sstatus
  let h := { h with sstatus := h.sstatus ||| sstatusVsDirty }
  let h := vectorRegsRestore vcpu h
  let vec := h.vec.writeVstart vcpu.vstart
  let vec := { vec with vxsat := vcpu.vxsat.setWidth 1 }
  let vec := { vec with vxrm := vcpu.vxrm.setWidth 2 }
  let vec := vec.writeVcsr vcpu.vcsr
  let h := { h with vec := vec }.vsetvl vcpu.vl vcpu.vtype
  { h with sstatus := oldSstatus }

def vcpuContextSave (feat : Features) (kmalloc : Option (Nat → BitVec 8)) (vcpu : Vcpu)
    (h : Hart u) : Vcpu × Hart u :=
  let vcpu := { vcpu with hstatus := h.hstatus &&& hstatusVcpuMask, vs := h.vs, hie := h.hie }
  let h := { h with hvip := 0 }
  let (vcpu, h) :=
    if feat.fpu && fpuDirty vcpu.vs.vsstatus then fpuSave vcpu h else (vcpu, h)
  if feat.vector && vectorDirty vcpu.vs.vsstatus then vectorCsrSave kmalloc vcpu h else (vcpu, h)

/-- The value of HEDELEG. -/
def guestExceptions : BitVec 64 := 0xb15d

/-- The value of HIDELEG. -/
def guestInterrupts : BitVec 64 := 0x444

def vcpuContextRestore (feat : Features) (vcpu : Vcpu) (h : Hart u) : Hart u :=
  let h := if feat.fpu && fpuDirty vcpu.vs.vsstatus then fpuRestore vcpu h else h
  let h := if feat.vector && vectorDirty vcpu.vs.vsstatus then vectorCsrRestore vcpu h else h
  { h with
    vs := vcpu.vs
    hie := vcpu.hie
    hvip := 0
    hedeleg := guestExceptions
    hideleg := guestInterrupts
    hstatus := h.hstatus &&& ~~~hstatusVcpuMask ||| vcpu.hstatus &&& hstatusVcpuMask }

/-! ## Saving and loading the vector registers -/

theorem VectorUnit.vlenb_toNat (u : VectorUnit) : (BitVec.ofNat 64 u.vlenb).toNat = u.vlenb := by
  have hle := u.vlenb_le
  rw [BitVec.toNat_ofNat, Nat.mod_eq_of_lt (by omega)]

/-- A setting that a hart has had is set again as it was. -/
theorem VectorUnit.vsetvl_self (c : VSetting u) : u.vsetvl c.vl c.vtype = c := by
  unfold VectorUnit.vsetvl
  rcases c.legal with ⟨n, hn, hle⟩ | ⟨htype, hvl⟩
  · split
    · next m hm =>
      obtain rfl := Option.some.inj (hn.symm.trans hm)
      apply VSetting.ext
      · change BitVec.ofNat 64 (min c.vl.toNat n) = c.vl
        rw [min_eq_left hle, BitVec.ofNat_toNat, BitVec.setWidth_eq]
      · rfl
    · next hm => cases hn.symm.trans hm
  · split
    · next m hm =>
      rw [htype, u.vlmax_vill] at hm
      cases hm
    · exact VSetting.ext hvl.symm htype.symm

/-- In `e8, m1` a whole register is stored and loaded. -/
theorem VectorUnit.vsetvl_e8m1 (u : VectorUnit) :
    (u.vsetvl (BitVec.ofNat 64 u.vlenb) e8m1).vl.toNat = u.vlenb := by
  unfold VectorUnit.vsetvl
  split
  · next n hn =>
    obtain rfl := Option.some.inj (u.vlmax_e8m1.symm.trans hn)
    change (BitVec.ofNat 64 (min (BitVec.ofNat 64 u.vlenb).toNat u.vlenb)).toNat = u.vlenb
    rw [u.vlenb_toNat, min_self, u.vlenb_toNat]
  · next hn => cases u.vlmax_e8m1.symm.trans hn

variable {r : VectorRegs u} {mem : Nat → BitVec 8}

/-- Rows of `n` bytes do not overlap. -/
theorem row_iff {n : Nat} (i k : Fin 32) (j : Fin n) :
    (i * n ≤ k * n + j ∧ k * n + j < i * n + n) ↔ k = i := by
  have hj := j.isLt
  constructor
  · rintro ⟨hle, hlt⟩
    have hlow : (i : Nat) < k + 1 := by
      refine Nat.lt_of_mul_lt_mul_right (a := n) ?_
      rw [Nat.add_mul, Nat.one_mul]
      omega
    have hhigh : (k : Nat) < i + 1 := by
      refine Nat.lt_of_mul_lt_mul_right (a := n) ?_
      rw [Nat.add_mul, Nat.one_mul]
      omega
    exact Fin.ext (by omega)
  · rintro rfl
    exact ⟨Nat.le_add_right _ _, Nat.add_lt_add_left hj _⟩

theorem vse8_row (hstart : r.vstart = 0) (hvl : r.setting.vl.toNat = u.vlenb) (i k : Fin 32)
    (j : Fin u.vlenb) :
    r.vse8 mem i (i * u.vlenb) (k * u.vlenb + j) =
      if k = i then r.v k j else mem (k * u.vlenb + j) := by
  have hrow := row_iff i k j
  have hzero : r.vstart.toNat = 0 := congrArg BitVec.toNat hstart
  unfold VectorRegs.vse8
  by_cases hk : k = i
  · subst hk
    obtain ⟨hle, hlt⟩ := hrow.mpr rfl
    have hsub : k * u.vlenb + j - k * u.vlenb = j := Nat.add_sub_cancel_left ..
    rw [dif_pos ⟨by rwa [hzero], by rwa [hvl], by rw [hsub]; exact j.isLt⟩, if_pos rfl]
    exact congrArg (r.v k) (Fin.ext hsub)
  · rw [if_neg hk, dif_neg]
    rintro ⟨hle, hlt, _⟩
    rw [hzero, Nat.add_zero] at hle
    rw [hvl] at hlt
    exact hk (hrow.mp ⟨hle, hlt⟩)

/-- What the store of the listed registers leaves in the area. -/
theorem foldl_vse8 (hstart : r.vstart = 0) (hvl : r.setting.vl.toNat = u.vlenb)
    (l : List (Fin 32)) (mem : Nat → BitVec 8) (k : Fin 32) (j : Fin u.vlenb) :
    l.foldl (fun mem i => r.vse8 mem i (i * u.vlenb)) mem (k * u.vlenb + j) =
      if k ∈ l then r.v k j else mem (k * u.vlenb + j) := by
  induction l generalizing mem with
  | nil => rfl
  | cons i l ih =>
    rw [List.foldl_cons, ih, vse8_row hstart hvl]
    by_cases hl : k ∈ l
    · rw [if_pos hl, if_pos (List.mem_cons_of_mem _ hl)]
    · rw [if_neg hl]
      by_cases hk : k = i
      · rw [if_pos hk, if_pos (hk ▸ List.mem_cons_self)]
      · rw [if_neg hk, if_neg fun h => (List.mem_cons.mp h).elim hk hl]

/-- What the load of the listed registers leaves in the registers. -/
theorem foldl_vle8 (l : List (Fin 32)) (r : VectorRegs u) (hstart : r.vstart = 0)
    (hvl : r.setting.vl.toNat = u.vlenb) :
    l.foldl (fun r i => r.vle8 mem i (i * u.vlenb)) r =
      { r with v := fun k j => if k ∈ l then mem (k * u.vlenb + j) else r.v k j } := by
  induction l generalizing r with
  | nil => rfl
  | cons i l ih =>
    rw [List.foldl_cons, ih (r.vle8 mem i (i * u.vlenb)) hstart hvl]
    apply VectorRegs.ext
    · funext k j
      change (if k ∈ l then _ else Function.update r.v i _ k j) =
        if k ∈ i :: l then mem (k * u.vlenb + j) else r.v k j
      by_cases hl : k ∈ l
      · rw [if_pos hl, if_pos (List.mem_cons_of_mem _ hl)]
      · rw [if_neg hl]
        by_cases hk : k = i
        · subst hk
          have hzero : r.vstart.toNat = 0 := congrArg BitVec.toNat hstart
          rw [Function.update_self, if_pos ⟨by omega, by rw [hvl]; exact j.isLt⟩,
            if_pos List.mem_cons_self]
        · rw [Function.update_of_ne hk, if_neg fun h => (List.mem_cons.mp h).elim hk hl]
    · rfl
    · rfl
    · rfl
    · rfl

/-! ## What save and restore do -/

variable {feat : Features} {vcpu : Vcpu} {h : Hart u} {area : Nat → BitVec 8}
  {kmalloc : Option (Nat → BitVec 8)}

theorem fpuRestore_eq : fpuRestore vcpu h =
    { h with fpu := ⟨vcpu.f, vcpu.fcsr.setWidth 8⟩ } := rfl

/-- The registers that `vector_csr_restore` loads from the fields and the area. -/
def Vcpu.loaded (vcpu : Vcpu) (mem : Nat → BitVec 8) : VectorRegs u where
  v k j := mem (k * u.vlenb + j)
  vstart := 0
  vxsat := vcpu.vcsr.setWidth 1
  vxrm := vcpu.vcsr.extractLsb' 1 2
  setting := u.vsetvl vcpu.vl vcpu.vtype

theorem vlenb_ne_zero (u : VectorUnit) : BitVec.ofNat 64 u.vlenb ≠ 0 := by
  intro hzero
  have hnat := u.vlenb_toNat
  rw [hzero] at hnat
  exact absurd hnat (Nat.ne_of_lt u.vlenb_pos)

theorem vectorCsrRestore_eq (hvlenb : vcpu.vlenb = BitVec.ofNat 64 u.vlenb)
    (hregs : vcpu.vregs = some mem) :
    vectorCsrRestore vcpu h = { h with vec := vcpu.loaded mem } := by
  have hload : ∀ h : Hart u, vectorRegsRestore vcpu h =
      { h with
        vec :=
          { h.vec with
            v := fun k j => mem (k * u.vlenb + j)
            vstart := 0
            setting := u.vsetvl (BitVec.ofNat 64 u.vlenb) e8m1 } } := by
    intro h
    unfold vectorRegsRestore
    simp only [hregs, hvlenb, if_neg (vlenb_ne_zero u), u.vlenb_toNat]
    rw [foldl_vle8 (List.finRange 32) _ rfl u.vsetvl_e8m1]
    simp only [List.mem_finRange, if_true]
    rfl
  simp only [vectorCsrRestore, hload]
  rfl

/-- An area that is there has the size of the registers. -/
def Vcpu.SizedFor (u : VectorUnit) (vcpu : Vcpu) : Prop :=
  ∀ mem, vcpu.vregs = some mem → vcpu.vregsSize = BitVec.ofNat 64 u.vlenb * 32

/-- The fields after `vector_csr_save`, with `mem` in the area. -/
def Vcpu.stored (vcpu : Vcpu) (r : VectorRegs u) (mem : Nat → BitVec 8) : Vcpu :=
  { vcpu with
    vstart := r.vstart
    vxsat := r.vxsat.setWidth 64
    vxrm := r.vxrm.setWidth 64
    vcsr := r.vcsr.setWidth 64
    vl := r.setting.vl
    vtype := r.setting.vtype
    vlenb := BitVec.ofNat 64 u.vlenb
    vregs := some mem
    vregsSize := BitVec.ofNat 64 u.vlenb * 32 }

theorem vectorCsrSave_eq (area : Nat → BitVec 8) (h : Hart u) (hsize : vcpu.SizedFor u) :
    ∃ mem, (∀ (k : Fin 32) (j : Fin u.vlenb), mem (k * u.vlenb + j) = h.vec.v k j) ∧
      vectorCsrSave (some area) vcpu h =
        (vcpu.stored h.vec mem, h.vsetvl (BitVec.ofNat 64 u.vlenb) e8m1) := by
  have hrows : ∀ (old : Nat → BitVec 8) (k : Fin 32) (j : Fin u.vlenb),
      (List.finRange 32).foldl (fun mem i =>
        (h.vsetvl (BitVec.ofNat 64 u.vlenb) e8m1).vec.vse8 mem i (i * u.vlenb)) old
          (k * u.vlenb + j) = h.vec.v k j := by
    intro old k j
    rw [foldl_vse8 rfl u.vsetvl_e8m1, if_pos (List.mem_finRange k)]
    rfl
  cases hregs : vcpu.vregs with
  | none =>
    refine ⟨_, hrows area, ?_⟩
    simp only [vectorCsrSave, vectorRegsSave, hregs, if_neg (vlenb_ne_zero u), u.vlenb_toNat]
    rw [if_neg (BitVec.lt_irrefl _)]
    rfl
  | some old =>
    refine ⟨_, hrows old, ?_⟩
    simp only [vectorCsrSave, vectorRegsSave, hregs, if_neg (vlenb_ne_zero u), u.vlenb_toNat,
      hsize old hregs]
    rw [if_neg (BitVec.lt_irrefl _)]
    unfold Vcpu.stored
    rw [← hsize old hregs]
    rfl

/-- What is loaded after the registers were stored, which is all but `vstart`. -/
theorem loaded_stored {r : VectorRegs u}
    (hrows : ∀ (k : Fin 32) (j : Fin u.vlenb), mem (k * u.vlenb + j) = r.v k j) :
    (vcpu.stored r mem).loaded mem = { r with vstart := 0 } := by
  have hbits : ∀ (x : BitVec 2) (y : BitVec 1), ((x ++ y).setWidth 64).setWidth 1 = y ∧
      ((x ++ y).setWidth 64).extractLsb' 1 2 = x := by decide
  apply VectorRegs.ext
  · funext k j
    exact hrows k j
  · rfl
  · exact (hbits r.vxrm r.vxsat).1
  · exact (hbits r.vxrm r.vxsat).2
  · exact u.vsetvl_self r.setting

/-! ## Isolation -/

/-- The FP registers of a vCPU with this `vsstatus` are saved and restored. -/
abbrev Features.SwitchesFpu (feat : Features) (vsstatus : BitVec 64) : Prop :=
  (feat.fpu && fpuDirty vsstatus) = true

abbrev Features.SwitchesVector (feat : Features) (vsstatus : BitVec 64) : Prop :=
  (feat.vector && vectorDirty vsstatus) = true

/-- The contexts that a vCPU can have while another one is running: memory for the vector
registers has been there when it was needed. -/
inductive Stored (feat : Features) (u : VectorUnit) : Vcpu → Prop
  | init : Stored feat u (archVcpuInit feat)
  | save {vcpu : Vcpu} (h : Hart u) (area : Nat → BitVec 8) :
      Stored feat u vcpu → Stored feat u (vcpuContextSave feat (some area) vcpu h).1

/-- What `vcpu_context_save` leaves in the context and on the hart. -/
structure Saved (feat : Features) (h : Hart u) (out : Vcpu × Hart u) : Prop where
  vs : out.1.vs = h.vs
  fpu : feat.SwitchesFpu h.vs.vsstatus →
    out.1.f = h.fpu.f ∧ out.1.fcsr = h.fpu.fcsr.setWidth 64
  vector : feat.SwitchesVector h.vs.vsstatus → ∃ vcpu mem,
    (∀ (k : Fin 32) (j : Fin u.vlenb), mem (k * u.vlenb + j) = h.vec.v k j) ∧
      out.1 = Vcpu.stored vcpu h.vec mem
  sized : out.1.SizedFor u
  hartFpu : out.2.fpu = h.fpu
  hartVxrm : out.2.vec.vxrm = h.vec.vxrm

/-- The part of `vcpu_context_save` behind the FP registers. -/
theorem Saved.ofFpu (area : Nat → BitVec 8) (vcpu : Vcpu) {h₀ : Hart u} (hh : h₀ = { h with hvip := 0 })
    (hvs : vcpu.vs = h.vs) (hsize : vcpu.SizedFor u)
    (hfpu : feat.SwitchesFpu h.vs.vsstatus →
      vcpu.f = h.fpu.f ∧ vcpu.fcsr = h.fpu.fcsr.setWidth 64) :
    Saved feat h (if feat.vector && vectorDirty vcpu.vs.vsstatus then
      vectorCsrSave (some area) vcpu h₀ else (vcpu, h₀)) := by
  subst hh
  rw [hvs]
  by_cases hdirty : (feat.vector && vectorDirty h.vs.vsstatus) = true
  · rw [if_pos hdirty]
    obtain ⟨mem, hrows, he⟩ := vectorCsrSave_eq area { h with hvip := 0 } hsize
    rw [he]
    exact ⟨hvs, hfpu, fun _ => ⟨vcpu, mem, hrows, rfl⟩, fun _ _ => rfl, rfl, rfl⟩
  · rw [if_neg hdirty]
    exact ⟨hvs, hfpu, fun h => absurd h hdirty, hsize, rfl, rfl⟩

theorem vcpuContextSave_saved (feat : Features) (area : Nat → BitVec 8) (h : Hart u)
    (hsize : vcpu.SizedFor u) :
    Saved feat h (vcpuContextSave feat (some area) vcpu h) := by
  let vcpu₁ := { vcpu with hstatus := h.hstatus &&& hstatusVcpuMask, vs := h.vs, hie := h.hie }
  by_cases hdirty : feat.SwitchesFpu h.vs.vsstatus
  · have hrest : Saved feat h _ := Saved.ofFpu area
      { vcpu₁ with f := h.fpu.f, fcsr := h.fpu.fcsr.setWidth 64 } rfl rfl hsize fun _ => ⟨rfl, rfl⟩
    simp only [vcpuContextSave, if_pos hdirty]
    exact hrest
  · have hrest : Saved feat h _ := Saved.ofFpu area vcpu₁ rfl rfl hsize fun h => absurd h hdirty
    simp only [vcpuContextSave, if_neg hdirty]
    exact hrest

theorem Stored.sized (hs : Stored feat u vcpu) : vcpu.SizedFor u := by
  induction hs with
  | init => exact nofun
  | save h area _ ih => exact (vcpuContextSave_saved feat area h ih).sized

/-- A vCPU with Dirty vector registers has them in its area. -/
theorem Stored.hasArea (hs : Stored feat u vcpu) (hvs : feat.SwitchesVector vcpu.vs.vsstatus) :
    vcpu.vlenb = BitVec.ofNat 64 u.vlenb ∧ ∃ mem, vcpu.vregs = some mem := by
  cases hs with
  | init =>
    have hinit : ∀ fpu vector,
        ¬ Features.SwitchesVector ⟨fpu, vector⟩ (archVcpuInit ⟨fpu, vector⟩).vs.vsstatus := by decide
    exact absurd hvs (hinit feat.fpu feat.vector)
  | save h area hs =>
    have hsaved := vcpuContextSave_saved feat area h hs.sized
    rw [hsaved.vs] at hvs
    obtain ⟨_, mem, _, he⟩ := hsaved.vector hvs
    rw [he]
    exact ⟨rfl, mem, rfl⟩

theorem vectorCsrRestore_fpu : (vectorCsrRestore vcpu h).fpu = h.fpu := by
  have hregs : ∀ h : Hart u, (vectorRegsRestore vcpu h).fpu = h.fpu := by
    intro h
    unfold vectorRegsRestore
    split
    · rfl
    · split
      · rfl
      · rfl
  exact hregs { h with sstatus := h.sstatus ||| sstatusVsDirty }

theorem restore_fpu : (vcpuContextRestore feat vcpu h).fpu =
    if feat.SwitchesFpu vcpu.vs.vsstatus then ⟨vcpu.f, vcpu.fcsr.setWidth 8⟩ else h.fpu := by
  have hvector : ∀ h : Hart u, (if feat.vector && vectorDirty vcpu.vs.vsstatus then
      vectorCsrRestore vcpu h else h).fpu = h.fpu := by
    intro h
    split
    · exact vectorCsrRestore_fpu
    · rfl
  change (if feat.vector && vectorDirty vcpu.vs.vsstatus then _ else _ : Hart u).fpu = _
  rw [hvector]
  by_cases hfs : (feat.fpu && fpuDirty vcpu.vs.vsstatus) = true
  · rw [if_pos hfs, if_pos (show feat.SwitchesFpu _ from hfs), fpuRestore_eq]
  · rw [if_neg hfs, if_neg (show ¬ feat.SwitchesFpu _ from hfs)]

theorem restore_vec_skip (hvs : ¬ feat.SwitchesVector vcpu.vs.vsstatus) :
    (vcpuContextRestore feat vcpu h).vec = h.vec := by
  change (if feat.vector && vectorDirty vcpu.vs.vsstatus then _ else _ : Hart u).vec = _
  rw [if_neg hvs]
  split
  · rfl
  · rfl

theorem restore_vec (hvs : feat.SwitchesVector vcpu.vs.vsstatus)
    (hvlenb : vcpu.vlenb = BitVec.ofNat 64 u.vlenb) (hregs : vcpu.vregs = some mem) :
    (vcpuContextRestore feat vcpu h).vec = vcpu.loaded mem := by
  change (if feat.vector && vectorDirty vcpu.vs.vsstatus then _ else _ : Hart u).vec = _
  rw [if_pos hvs, vectorCsrRestore_eq hvlenb hregs]

/-- What `vcpu` finds on the hart when `old` leaves it. -/
def entry (feat : Features) (kmalloc : Option (Nat → BitVec 8)) (old vcpu : Vcpu) (h : Hart u) :
    Hart u :=
  vcpuContextRestore feat vcpu (vcpuContextSave feat kmalloc old h).2

/-- save(A), restore(B), B runs, save(B), restore(A). -/
def roundTrip (feat : Features) (area area' : Nat → BitVec 8) (run : Hart u → Hart u)
    (A B : Vcpu) (h : Hart u) : Hart u :=
  entry feat (some area') B (vcpuContextSave feat (some area) A h).1
    (run (entry feat (some area) A B h))

abbrev FsOff (vsstatus : BitVec 64) : Prop := vsstatus &&& sstatusFs = 0

abbrev VsOff (vsstatus : BitVec 64) : Prop := vsstatus &&& sstatusVs = 0

/-- A finds its FP and vector registers again whatever B does, and what B can read of them
when it enters does not depend on what A has left there. -/
structure Isolated (feat : Features) (A B : Vcpu) (h : Hart u) : Prop where
  kept : ∀ area area' run, (roundTrip feat area area' run A B h).fpu = h.fpu ∧
    (roundTrip feat area area' run A B h).vec = h.vec
  hidden : ∀ area fpu vec,
    (¬ FsOff B.vs.vsstatus → (entry feat (some area) A B { h with fpu := fpu, vec := vec }).fpu =
      (entry feat (some area) A B h).fpu) ∧
    (¬ VsOff B.vs.vsstatus → (entry feat (some area) A B { h with fpu := fpu, vec := vec }).vec =
      (entry feat (some area) A B h).vec)

variable {A B : Vcpu}

theorem entry_fpu (hA : Stored feat u A) : (entry feat (some area) A B h).fpu =
    if feat.SwitchesFpu B.vs.vsstatus then ⟨B.f, B.fcsr.setWidth 8⟩ else h.fpu := by
  rw [entry, restore_fpu, (vcpuContextSave_saved feat area h hA.sized).hartFpu]

/-- What A has left stays in the registers that are not restored. -/
theorem entry_vxrm (hA : Stored feat u A) (hvs : ¬ feat.SwitchesVector B.vs.vsstatus) :
    (entry feat (some area) A B h).vec.vxrm = h.vec.vxrm := by
  rw [entry, restore_vec_skip hvs, (vcpuContextSave_saved feat area h hA.sized).hartVxrm]

/-- On the way back to A: saved from `h`, it finds what was there, or what the other left. -/
theorem back_fpu (hA : Stored feat u A) (hB : Stored feat u B) {h' : Hart u} :
    (entry feat (some area') B (vcpuContextSave feat (some area) A h).1 h').fpu =
      if feat.SwitchesFpu h.vs.vsstatus then h.fpu else h'.fpu := by
  have hsaved := vcpuContextSave_saved feat area h hA.sized
  rw [entry_fpu hB, hsaved.vs]
  by_cases hfs : feat.SwitchesFpu h.vs.vsstatus
  · obtain ⟨hf, hfcsr⟩ := hsaved.fpu hfs
    rw [if_pos hfs, if_pos hfs, hf, hfcsr, BitVec.setWidth_setWidth_of_le _ (by decide),
      BitVec.setWidth_eq]
  · rw [if_neg hfs, if_neg hfs]

theorem back_vec (hA : Stored feat u A) {h' : Hart u}
    (hvs : feat.SwitchesVector h.vs.vsstatus) :
    (entry feat kmalloc B (vcpuContextSave feat (some area) A h).1 h').vec =
      { h.vec with vstart := 0 } := by
  have hsaved := vcpuContextSave_saved feat area h hA.sized
  obtain ⟨vcpu, mem, hrows, he⟩ := hsaved.vector hvs
  rw [← hsaved.vs] at hvs
  have hregs : (vcpuContextSave feat (some area) A h).1.vregs = some mem := by rw [he]; rfl
  rw [entry, restore_vec hvs (by rw [he]; rfl) hregs, he, loaded_stored hrows]

theorem back_vxrm (hA : Stored feat u A) (hB : Stored feat u B) {h' : Hart u}
    (hvs : ¬ feat.SwitchesVector h.vs.vsstatus) :
    (entry feat (some area') B (vcpuContextSave feat (some area) A h).1 h').vec.vxrm =
      h'.vec.vxrm := by
  have hsaved := vcpuContextSave_saved feat area h hA.sized
  rw [← hsaved.vs] at hvs
  exact entry_vxrm hB hvs

/-- Both `FS` and both `VS` fields are Dirty, and A was not inside a vector instruction. -/
structure AllDirty (feat : Features) (h : Hart u) (B : Vcpu) : Prop where
  fpuA : feat.SwitchesFpu h.vs.vsstatus
  fpuB : feat.SwitchesFpu B.vs.vsstatus
  vectorA : feat.SwitchesVector h.vs.vsstatus
  vectorB : feat.SwitchesVector B.vs.vsstatus
  vstart : h.vec.vstart = 0

/-- With all fields Dirty both vCPUs have their own registers. -/
theorem AllDirty.isolated (hd : AllDirty feat h B) (hA : Stored feat u A) (hB : Stored feat u B) :
    Isolated feat A B h := by
  obtain ⟨hvlenb, mem, hregs⟩ := hB.hasArea hd.vectorB
  refine ⟨fun area area' run => ⟨?_, ?_⟩, fun area fpu vec => ⟨fun _ => ?_, fun _ => ?_⟩⟩
  · rw [roundTrip, back_fpu hA hB, if_pos hd.fpuA]
  · rw [roundTrip, back_vec hA hd.vectorA, ← hd.vstart]
  · rw [entry_fpu hA, entry_fpu hA, if_pos hd.fpuB, if_pos hd.fpuB]
  · rw [entry, entry, restore_vec hd.vectorB hvlenb hregs, restore_vec hd.vectorB hvlenb hregs]

theorem Isolated.allDirty (hi : Isolated feat A B h) (hA : Stored feat u A)
    (hB : Stored feat u B) (hfs : ¬ FsOff B.vs.vsstatus) (hvs : ¬ VsOff B.vs.vsstatus) :
    AllDirty feat h B := by
  have hfcsr : h.fpu.fcsr + 1 ≠ h.fpu.fcsr := by simp
  have hvxrm : h.vec.vxrm + 1 ≠ h.vec.vxrm := by simp
  -- B changes what is not saved for A, and finds what is not restored for it
  let fpu : Fpu := ⟨h.fpu.f, h.fpu.fcsr + 1⟩
  let vec : VectorRegs u := { h.vec with vxrm := h.vec.vxrm + 1 }
  let area : Nat → BitVec 8 := fun _ => 0
  obtain ⟨hkeptFpu, hkeptVec⟩ := hi.kept area area fun h' => { h' with fpu := fpu, vec := vec }
  obtain ⟨hhidFpu, hhidVec⟩ := hi.hidden area fpu vec
  have hvectorA : feat.SwitchesVector h.vs.vsstatus := by
    by_contra hno
    have hback := congrArg VectorRegs.vxrm hkeptVec
    rw [roundTrip, back_vxrm hA hB hno] at hback
    exact hvxrm hback
  refine ⟨?_, ?_, hvectorA, ?_, ?_⟩
  · by_contra hno
    rw [roundTrip, back_fpu hA hB, if_neg hno] at hkeptFpu
    exact hfcsr (congrArg Fpu.fcsr hkeptFpu)
  · by_contra hno
    have hsame := hhidFpu hfs
    rw [entry_fpu hA, entry_fpu hA, if_neg hno, if_neg hno] at hsame
    exact hfcsr (congrArg Fpu.fcsr hsame)
  · by_contra hno
    have hsame := congrArg VectorRegs.vxrm (hhidVec hvs)
    rw [entry_vxrm hA hno, entry_vxrm hA hno] at hsame
    exact hvxrm hsame
  · rw [roundTrip, back_vec hA hvectorA] at hkeptVec
    exact (congrArg VectorRegs.vstart hkeptVec).symm

end

/-- A unit with VLEN 128 that supports no other type than `e8, m1`. -/
def bytesUnit : VectorUnit where
  vlenb := 16
  vlmax vtype := if vtype = e8m1 then some 16 else none
  vlenb_pos := by decide
  vlenb_le := by decide
  vlmax_e8m1 := rfl
  vlmax_vill := rfl

/-- A hart on which all registers are 0 but `vsstatus`. -/
def zeroHart (vsstatus : BitVec 64) : Hart bytesUnit where
  sstatus := 0
  hstatus := 0
  hie := 0
  hvip := 0
  hedeleg := 0
  hideleg := 0
  vs := ⟨vsstatus, 0, 0, 0, 0, 0, 0, 0⟩
  fpu := ⟨fun _ => 0, 0⟩
  vec := ⟨fun _ _ => 0, 0, 0, 0, ⟨0, vill, .inr ⟨rfl, rfl⟩⟩⟩

def allFeatures : Features := ⟨true, true⟩

/-- A vCPU that was saved with both fields Dirty. -/
def dirtyVcpu : Vcpu :=
  (vcpuContextSave allFeatures (some fun _ => 0) (archVcpuInit allFeatures)
    (zeroHart (sstatusFsDirty ||| sstatusVsDirty))).1

theorem dirtyVcpu_stored : Stored allFeatures bytesUnit dirtyVcpu := .save _ _ .init

theorem not_off_dirty : ¬ FsOff dirtyVcpu.vs.vsstatus ∧ ¬ VsOff dirtyVcpu.vs.vsstatus := by
  decide

end HyperCore.Riscv64
