import HyperCore.Riscv64.Emulate

/-!
# Emulated loads and stores against the instruction set

A store or load is shown to `vcpu_emulate_mmio` by the memory at `sepc` or by `htinst`.

`mmio_store_exact`: a store is emulated as the instruction set has it unless its source is x0 in a
32-bit form, which the frame keeps as `sepc`, or it is a C.SWSP or C.SDSP from memory whose source
is not the register that the low bits of the field name in the other compressed stores.

`mmio_load_exact`: a load is emulated so where the device already returns the extended value and
the destination is where a 32-bit load has it, and LHU never is.
-/

namespace HyperCore.Riscv64

open ArchPage ReadLog

/-! ## How an instruction is shown -/

/-- Where `vcpu_fetch_inst` takes the instruction from. -/
inductive Source
  | memory | htinst

/-- The instruction lies in the `len` bytes at the physical address `sepc`. -/
def InMemory (L : Layout) (mem : Nat → BitVec 8) (sepc : BitVec 64) (bits : BitVec 32) (len : Nat) :
    Prop :=
  ∀ k, k < len → view L mem (L.phyToVir sepc.toNat + k) = some (bits.extractLsb' (8 * k) 8)

/-- `bits` is what `source` shows of an instruction with these encodings. -/
def Shown (L : Layout) (mem : Nat → BitVec 8) (sepc htinst : BitVec 64) (bits : BitVec 32)
    (len : Nat) (encodes transformed : Prop) : Source → Prop
  | .memory => encodes ∧ InMemory L mem sepc bits len ∧ (htinst = 0 ∨ sepc.toNat < pageVirtOffset)
  | .htinst => transformed ∧ htinst = bits.setWidth 64 ∧ pageVirtOffset ≤ sepc.toNat

/-! ## Register numbers -/

theorem xSlot_lt (r : BitVec 5) : r.toNat < 36 := by
  have := r.isLt
  omega

/-- The word of the frame for register `r`; x0 has none, and `sepc` is in its place. -/
def xSlot (r : BitVec 5) : Fin 36 := ⟨r.toNat, xSlot_lt r⟩

/-- The guest's registers. -/
def CpuUserRegs.x (regs : CpuUserRegs) (r : BitVec 5) : BitVec 64 :=
  if r = 0 then 0 else regs (xSlot r)

def CpuUserRegs.setX (regs : CpuUserRegs) (r : BitVec 5) (v : BitVec 64) : CpuUserRegs :=
  if r = 0 then regs else regs.set (xSlot r) v

theorem xSlot_inj {r r' : BitVec 5} (h : xSlot r = xSlot r') : r = r' := by
  simp only [xSlot, Fin.mk.injEq] at h
  exact BitVec.eq_of_toNat_eq h

theorem xSlot_ne_zero {r : BitVec 5} (h : r ≠ 0) : xSlot r ≠ 0 := fun he => h (xSlot_inj he)

/-- The field at `pos` as `REG_PTR` reads it. -/
theorem regPtr_field {inst : BitVec 32} {pos : Nat} (hpos : 3 ≤ pos) :
    regPtr inst pos = xSlot (inst.extractLsb' pos 5) := by
  simp only [regPtr, xSlot, Fin.mk.injEq, regOffset]
  rw [BitVec.toNat_and, show (0xf8#32).toNat = (2 ^ 5 - 1) * 2 ^ 3 from rfl,
    show (8 : Nat) = 2 ^ 3 from rfl, Nat.and_div_two_pow, Nat.mul_div_cancel _ (by decide),
    Nat.and_two_pow_sub_one_eq_mod, BitVec.extractLsb'_toNat, BitVec.toNat_ushiftRight,
    Nat.shiftRight_eq_div_pow, Nat.shiftRight_eq_div_pow, Nat.div_div_eq_div_mul, ← Nat.pow_add,
    Nat.sub_add_cancel hpos]

theorem regPtr_rs2 (inst : BitVec 32) : regPtr inst 20 = xSlot (RvIsa.rs2 inst) :=
  regPtr_field (by decide)

theorem regPtr_rd (inst : BitVec 32) : regPtr inst 7 = xSlot (RvIsa.rd inst) :=
  regPtr_field (by decide)

theorem rs2cSlot_eq (inst : BitVec 32) :
    rs2cSlot inst = xSlot (RvIsa.creg (RvIsa.crs2 inst)) := by
  have hfield : inst >>> 2 &&& 7#32 = (RvIsa.crs2 inst).setWidth 32 := by
    apply BitVec.eq_of_getLsbD_eq
    intro i hi
    unfold RvIsa.crs2
    interval_cases i <;> simp
  have := (RvIsa.crs2 inst).isLt
  have height : (8 : BitVec 5).toNat = 8 := rfl
  simp only [rs2cSlot, xSlot, RvIsa.creg, Fin.mk.injEq, hfield, BitVec.toNat_add,
    BitVec.toNat_setWidth, height]
  omega

theorem instGetRd_eq_zero (inst : BitVec 32) : instGetRd inst = 0 ↔ RvIsa.rd inst = 0 := by
  have hfield : instGetRd inst = (RvIsa.rd inst).setWidth 32 := by
    apply BitVec.eq_of_getLsbD_eq
    intro i hi
    unfold instGetRd RvIsa.rd
    interval_cases i <;> simp
  rw [hfield]
  constructor
  · intro h
    have hwidth := congrArg (BitVec.setWidth 5) h
    rwa [BitVec.setWidth_setWidth_of_le _ (by decide), BitVec.setWidth_eq] at hwidth
  · intro h
    rw [h]
    rfl

/-! ## The decoder -/

section

open RvIsa

variable {inst : BitVec 32}

theorem insnIs16Bit_iff : insnIs16Bit inst = true ↔ quadrant inst ≠ 3 := by
  change (inst &&& 3#32 != 3#32) = true ↔ _
  rw [and_quadrant, bne_iff_ne, ne_eq, not_iff_not]
  generalize quadrant inst = q
  revert q
  decide

theorem insnIs16Bit_of_full {op : BitVec 7} (hop : opcode inst = op) (hq : op.setWidth 2 = 3) :
    insnIs16Bit inst = false := by
  rw [Bool.eq_false_iff, ne_eq, insnIs16Bit_iff, not_not, quadrant_of_opcode, hop, hq]

theorem insnIs16Bit_of_short (hq : quadrant inst = 0b00 ∨ quadrant inst = 0b10) :
    insnIs16Bit inst = true := by
  rw [insnIs16Bit_iff]
  rcases hq with hq | hq <;> rw [hq] <;> decide

/-- A 32-bit store, also one normalised from `htinst`. -/
theorem decode_store (i : Store) (hop : opcode inst = 0b0100011) (hf : funct3 inst = i.code) :
    insnIs16Bit inst = false ∧ instIsStore inst = true ∧ instToAccessLen inst = i.width.bytes := by
  have hfull : insnIs16Bit inst = false := insnIs16Bit_of_full hop rfl
  have hmask := and_opcode_funct3 inst
  rw [hop, hf] at hmask
  refine ⟨hfull, ?_, ?_⟩
  · unfold instIsStore
    rw [hmask, hfull]
    cases i <;> simp [Store.code]
  · unfold instToAccessLen
    rw [hmask, hfull]
    cases i <;> simp [Store.code, Store.width, Width.bytes]

/-- A compressed store as it lies in memory. -/
theorem decode_cstore (i : Store) (henc : i.Encodes inst) (hlen : i.len = 2) :
    insnIs16Bit inst = true ∧ instIsStore inst = true ∧ instToAccessLen inst = i.width.bytes := by
  obtain ⟨-, hq, hf⟩ := henc.short hlen
  have hshort := insnIs16Bit_of_short hq
  have hmask := and_quadrant_cfunct3 inst
  rw [hf] at hmask
  refine ⟨hshort, ?_, ?_⟩
  · unfold instIsStore
    rw [hmask, hshort]
    rcases hq with hq | hq <;> rw [hq] <;> cases i <;> simp_all [Store.code, Store.len]
  · unfold instToAccessLen
    rw [hmask, hshort]
    rcases hq with hq | hq <;> rw [hq] <;> cases i <;>
      simp_all [Store.code, Store.len, Store.width, Width.bytes]

/-- A 32-bit load: LHU is taken for a word. -/
theorem decode_load (i : Load) (hop : opcode inst = 0b0000011) (hf : funct3 inst = i.code) :
    insnIs16Bit inst = false ∧ instIsStore inst = false ∧
      instToAccessLen inst = if i.code = 0b101 then 4 else i.width.bytes := by
  have hfull : insnIs16Bit inst = false := insnIs16Bit_of_full hop rfl
  have hmask := and_opcode_funct3 inst
  rw [hop, hf] at hmask
  refine ⟨hfull, ?_, ?_⟩
  · unfold instIsStore
    rw [hmask, hfull]
    cases i <;> simp [Load.code]
  · unfold instToAccessLen
    rw [hmask, hfull]
    cases i <;> simp [Load.code, Load.width, Width.bytes]

theorem decode_cload (i : Load) (henc : i.Encodes inst) (hlen : i.len = 2) :
    insnIs16Bit inst = true ∧ instIsStore inst = false ∧
      instToAccessLen inst = i.width.bytes := by
  obtain ⟨-, hq, hf⟩ := henc.short hlen
  have hshort := insnIs16Bit_of_short hq
  have hmask := and_quadrant_cfunct3 inst
  rw [hf] at hmask
  refine ⟨hshort, ?_, ?_⟩
  · unfold instIsStore
    rw [hmask, hshort]
    rcases hq with hq | hq <;> rw [hq] <;> cases i <;> simp_all [Load.code, Load.len]
  · unfold instToAccessLen
    rw [hmask, hshort]
    rcases hq with hq | hq <;> rw [hq] <;> cases i <;>
      simp_all [Load.code, Load.len, Load.width, Width.bytes]

end

/-! ## The fetch -/

section

variable {L : Layout} {mem : Nat → BitVec 8} {sepc htinst : BitVec 64} {bits : BitVec 32}
  {len : Nat}

theorem view_lt {v : Nat} {b : BitVec 8} (h : view L mem v = some b) : v < 2 ^ 64 := by
  simp only [view, Option.map_eq_some_iff, hostVaToPa] at h
  obtain ⟨pa, hpa, -⟩ := h
  split at hpa
  · omega
  · split at hpa
    · simp only [pageVirtOffset, directMappingSize] at *
      omega
    · cases hpa

/-- Two bytes of an instruction, loaded together. -/
theorem load_half {v s : Nat}
    (h : ∀ k, k < 2 → view L mem (v + k) = some (bits.extractLsb' (s + 8 * k) 8)) :
    (load (view L mem) v 2).result = some ((bits.extractLsb' s 16).setWidth 64) := by
  have h0 : view L mem v = some (bits.extractLsb' s 8) := h 0 (by decide)
  have h1 : view L mem (v + 1) = some (bits.extractLsb' (s + 8) 8) := h 1 (by decide)
  rw [result_load fun k hk => by rw [h k hk]; rfl]
  simp only [word, h0, h1, Option.getD_some, Nat.add_zero, Nat.mul_zero, Nat.mul_one]
  congr 1
  apply BitVec.eq_of_getLsbD_eq
  intro i hi
  interval_cases i <;> simp

theorem fetch_memory (hmem : InMemory L mem sepc bits len)
    (hlow : htinst = 0 ∨ sepc.toNat < pageVirtOffset)
    (hlen : len = 2 ∧ insnIs16Bit bits = true ∧ bits.toNat < 2 ^ 16 ∨
      len = 4 ∧ insnIs16Bit bits = false) :
    (vcpuFetchInst L mem sepc htinst).result = some bits := by
  have hnot : ¬ (pageVirtOffset ≤ sepc.toNat ∧ htinst.setWidth 32 ≠ 0#32) := by
    rintro ⟨hle, hne⟩
    rcases hlow with rfl | hlt
    · exact hne rfl
    · omega
  have hlow2 : (load (view L mem) (L.phyToVir sepc.toNat) 2).result =
      some ((bits.extractLsb' 0 16).setWidth 64) :=
    load_half fun k hk => by
      rw [Nat.zero_add]
      exact hmem k (by omega)
  have hsame : insnIs16Bit (((bits.extractLsb' 0 16).setWidth 64).setWidth 32) =
      insnIs16Bit bits := by
    change ((((bits.extractLsb' 0 16).setWidth 64).setWidth 32) &&& 3#32 != 3#32) =
      (bits &&& 3#32 != 3#32)
    congr 1
    apply BitVec.eq_of_getLsbD_eq
    intro i hi
    interval_cases i <;> simp
  rw [vcpuFetchInst, if_neg hnot, result_bind hlow2]
  simp only [hsame]
  rcases hlen with ⟨-, hshort, hlt⟩ | ⟨hfour, hfull⟩
  · rw [hshort, if_pos rfl, result_pure]
    congr 1
    apply BitVec.eq_of_toNat_eq
    simp only [BitVec.toNat_setWidth, BitVec.extractLsb'_toNat, Nat.shiftRight_zero]
    omega
  · have hnext := hmem 2 (by omega)
    have hwrap : MachineInt.toUInt64 (L.phyToVir sepc.toNat + 2) = L.phyToVir sepc.toNat + 2 :=
      MachineInt.toUInt64_natCast (view_lt hnext)
    rw [hfull, if_neg (by decide), hwrap]
    have hhigh : (load (view L mem) (L.phyToVir sepc.toNat + 2) 2).result =
        some ((bits.extractLsb' 16 16).setWidth 64) :=
      load_half fun k hk => by
        rw [Nat.add_assoc, hmem (2 + k) (by omega), Nat.mul_add]
    rw [result_bind hhigh, result_pure]
    congr 1
    apply BitVec.eq_of_getLsbD_eq
    intro i hi
    interval_cases i <;> simp

theorem htinst_ne_zero (hbits : htinst = bits.setWidth 64) (hne : bits ≠ 0) : htinst ≠ 0 := by
  rintro rfl
  have hlow := congrArg (BitVec.setWidth 32) hbits
  rw [BitVec.setWidth_setWidth_of_le _ (by decide), BitVec.setWidth_eq] at hlow
  exact hne hlow.symm

theorem fetch_htinst (hbits : htinst = bits.setWidth 64) (hne : bits ≠ 0)
    (hhigh : pageVirtOffset ≤ sepc.toNat) :
    (vcpuFetchInst L mem sepc htinst).result = some bits := by
  have hlow : htinst.setWidth 32 = bits := by
    rw [hbits, BitVec.setWidth_setWidth_of_le _ (by decide), BitVec.setWidth_eq]
  rw [vcpuFetchInst, hlow, if_pos ⟨hhigh, hne⟩, result_pure]

end

/-! ## Bit 1 of an instruction from `htinst` -/

section

open RvIsa

variable {inst : BitVec 32} {htinst : BitVec 64}

theorem opcode_or_two : opcode (inst ||| 2#32) = opcode inst ||| 2 := by
  unfold opcode
  rw [BitVec.extractLsb'_or]
  rfl

/-- A field above bit 1. -/
theorem extractLsb'_or_two {pos len : Nat} (hpos : 2 ≤ pos) :
    (inst ||| 2#32).extractLsb' pos len = inst.extractLsb' pos len := by
  have hzero : (2#32).extractLsb' pos len = BitVec.ofNat len 0 := by
    apply BitVec.eq_of_toNat_eq
    rw [BitVec.extractLsb'_toNat, Nat.shiftRight_eq_div_pow, Nat.div_eq_of_lt, Nat.zero_mod]
    · rfl
    · exact lt_of_lt_of_le (by decide : (2#32).toNat < 2 ^ 2) (Nat.pow_le_pow_right (by decide) hpos)
  rw [BitVec.extractLsb'_or, hzero, BitVec.or_zero]

theorem and_three_eq_one : inst &&& 3#32 = 1#32 ↔ quadrant inst = 0b01 := by
  rw [and_quadrant]
  generalize quadrant inst = q
  revert q
  decide

theorem decodeInst_of_quadrant (hq : quadrant inst ≠ 0b01) : decodeInst htinst inst = inst := by
  rw [decodeInst, if_neg fun h => hq (and_three_eq_one.1 h.2)]

theorem decodeInst_transformed (hne : htinst ≠ 0) (hq : quadrant inst = 0b01) :
    decodeInst htinst inst = inst ||| 2#32 := by
  rw [decodeInst, if_pos ⟨hne, and_three_eq_one.2 hq⟩]

theorem opcode_low (op : BitVec 5) : (op ++ 0b01#2).setWidth 2 = 0b01#2 ∧
    (op ++ 0b11#2).setWidth 2 = 0b11#2 ∧ op ++ 0b01#2 ||| 2 = op ++ 0b11#2 := by
  revert op
  decide

/-- An instruction from `htinst` is decoded as the 32-bit one. -/
theorem decodeInst_htinst (op : BitVec 5) {len : Nat} (hne : htinst ≠ 0)
    (hop : opcode inst = if len = 2 then op ++ 0b01#2 else op ++ 0b11#2) :
    opcode (decodeInst htinst inst) = op ++ 0b11#2 ∧
      funct3 (decodeInst htinst inst) = funct3 inst ∧
      rs2 (decodeInst htinst inst) = rs2 inst ∧ rd (decodeInst htinst inst) = rd inst ∧
      (insnIs16Bit inst = decide (len = 2)) := by
  have hq := quadrant_of_opcode inst
  obtain ⟨hshort, hfull, hor⟩ := opcode_low op
  rw [hop] at hq
  split at hop
  · next hlen =>
    have hone : quadrant inst = 0b01 := by
      rw [hq, if_pos hlen, hshort]
      rfl
    rw [decodeInst_transformed hne hone, opcode_or_two, hop]
    refine ⟨hor, extractLsb'_or_two (by decide), extractLsb'_or_two (by decide),
      extractLsb'_or_two (by decide), ?_⟩
    rw [decide_eq_true hlen, insnIs16Bit_iff, hone]
    decide
  · next hlen =>
    have hthree : quadrant inst = 0b11 := by
      rw [hq, if_neg hlen, hfull]
      rfl
    rw [decodeInst_of_quadrant (by rw [hthree]; decide)]
    refine ⟨hop, rfl, rfl, rfl, ?_⟩
    rw [decide_eq_false hlen, Bool.eq_false_iff, ne_eq, insnIs16Bit_iff, not_not, hthree]

end

/-! ## Stores -/

section

open RvIsa

variable {L : Layout} {mem : Nat → BitVec 8} {regions : List MemRegion} {region : MemRegion}
  {read : BitVec 64 → Nat → BitVec 64} {htinst faultAddr : BitVec 64} {regs : CpuUserRegs}
  {bits : BitVec 32} {isWrite : Bool} {source : Source}

/-- One call of the device's `write`, with the value of the source register, and nothing changed
but `sepc`. -/
def StoreMatches (L : Layout) (mem : Nat → BitVec 8) (regions : List MemRegion)
    (read : BitVec 64 → Nat → BitVec 64) (htinst : BitVec 64) (regs : CpuUserRegs)
    (faultAddr : BitVec 64) (isWrite : Bool) (i : Store) : Prop :=
  (vcpuEmulateMmio L mem regions read htinst regs faultAddr isWrite).result =
    some (some ⟨[.write faultAddr i.width.bytes (regs.x i.src)],
      regs.setSepc (regs.sepc + BitVec.ofNat 64 i.len)⟩)

/-- The register whose word the emulation takes for the source. -/
def storeReg (i : Store) : Source → BitVec 5
  | .htinst => i.src
  | .memory =>
    match i with
    | .cswsp r | .csdsp r => creg (r.setWidth 3)
    | .sb r | .sh r | .sw r | .sd r => r
    | .csw r | .csd r => creg r

/-- The source is not x0 in a 32-bit form, and in the compressed forms from memory the 3-bit field
names a register of the same value. -/
def StoreSource (regs : CpuUserRegs) (i : Store) : Source → Prop
  | .htinst => i.src ≠ 0
  | .memory =>
    match i with
    | .sb r | .sh r | .sw r | .sd r => r ≠ 0 ∨ regs.sepc = 0
    | .csw _ | .csd _ => True
    | .cswsp r | .csdsp r => regs.x (creg (r.setWidth 3)) = regs.x r

theorem creg_ne_zero (r : BitVec 3) : creg r ≠ 0 := by
  revert r
  decide

theorem Store.len_cases (i : Store) : i.len = 2 ∨ i.len = 4 := by
  cases i <;> simp [Store.len]

theorem insnLen_eq {inst : BitVec 32} {len : Nat} (hlen : len = 2 ∨ len = 4)
    (h : insnIs16Bit inst = decide (len = 2)) : insnLen inst = BitVec.ofNat 64 len := by
  rw [insnLen, h]
  rcases hlen with rfl | rfl <;> rfl

theorem crs2_of_encodes {i : Store} (h : i.Encodes bits) (hlen : i.len = 2) :
    creg (crs2 bits) = storeReg i .memory := by
  cases i with
  | sb r | sh r | sw r | sd r => cases hlen
  | csw r | csd r => rw [h.2.2.2, storeReg]
  | cswsp r | csdsp r => rw [crs2_eq_cssRs2, h.2.2.2, storeReg]

theorem storeReg_of_full {i : Store} (hlen : i.len = 4) : storeReg i .memory = i.src := by
  cases i with
  | sb r | sh r | sw r | sd r => rfl
  | csw r | csd r | cswsp r | csdsp r => cases hlen

/-- What the emulation makes of a store that it is shown. -/
theorem store_shown (i : Store)
    (h : Shown L mem regs.sepc htinst bits i.len (i.Encodes bits) (i.Transformed bits) source) :
    (vcpuFetchInst L mem regs.sepc htinst).result = some bits ∧
      insnLen bits = BitVec.ofNat 64 i.len ∧
      instIsStore (decodeInst htinst bits) = true ∧
      instToAccessLen (decodeInst htinst bits) = i.width.bytes ∧
      (if insnIs16Bit (decodeInst htinst bits) then rs2cSlot (decodeInst htinst bits)
        else regPtr (decodeInst htinst bits) 20) = xSlot (storeReg i source) := by
  cases source with
  | memory =>
    obtain ⟨henc, hmem, hlow⟩ := h
    rcases Store.len_cases i with hlen | hlen
    · obtain ⟨hlt, hq, -⟩ := henc.short hlen
      have hsame : decodeInst htinst bits = bits := decodeInst_of_quadrant (by
        rcases hq with hq | hq <;> rw [hq] <;> decide)
      obtain ⟨hshort, hstore, hbytes⟩ := decode_cstore i henc hlen
      rw [hsame, if_pos hshort, rs2cSlot_eq]
      refine ⟨fetch_memory hmem hlow (.inl ⟨hlen, hshort, hlt⟩),
        insnLen_eq (.inl hlen) (by rw [hshort, decide_eq_true hlen]), hstore, hbytes, ?_⟩
      rw [crs2_of_encodes henc hlen]
    · obtain ⟨hop, hf, hreg⟩ := henc.full hlen
      have hsame : decodeInst htinst bits = bits := decodeInst_of_quadrant (by
        rw [quadrant_of_opcode, hop]
        decide)
      obtain ⟨hfull, hstore, hbytes⟩ := decode_store i hop hf
      rw [hsame, hfull, if_neg (by decide), regPtr_rs2, hreg]
      refine ⟨fetch_memory hmem hlow (.inr ⟨hlen, hfull⟩),
        insnLen_eq (.inr hlen) (by rw [hfull, hlen]; rfl), hstore, hbytes, ?_⟩
      rw [storeReg_of_full hlen]
  | htinst =>
    obtain ⟨⟨hop, hf, hreg⟩, hbits, hhigh⟩ := h
    have hne : bits ≠ 0 := by
      rintro rfl
      split at hop <;> cases hop
    obtain ⟨hop', hf', hrs2, -, hlen⟩ :=
      decodeInst_htinst 0b01000 (htinst_ne_zero hbits hne) hop
    obtain ⟨hfull, hstore, hbytes⟩ := decode_store i hop' (hf'.trans hf)
    rw [hfull, if_neg (by decide), regPtr_rs2, hrs2, hreg]
    exact ⟨fetch_htinst hbits hne hhigh, insnLen_eq (Store.len_cases i) hlen, hstore, hbytes, rfl⟩

theorem slot_eq_x_iff (r : BitVec 5) : regs (xSlot r) = regs.x r ↔ r ≠ 0 ∨ regs.sepc = 0 := by
  unfold CpuUserRegs.x
  split
  · next hzero =>
    subst hzero
    exact ⟨fun h => .inr h, fun h => h.resolve_left fun hne => hne rfl⟩
  · next hne => exact iff_of_true rfl (.inl hne)

theorem storeSource_iff (i : Store) (hhigh : source = .htinst → regs.sepc ≠ 0) :
    regs (xSlot (storeReg i source)) = regs.x i.src ↔ StoreSource regs i source := by
  cases source with
  | htinst => exact (slot_eq_x_iff i.src).trans (or_iff_left (hhigh rfl))
  | memory =>
    have hx (r : BitVec 3) : regs (xSlot (creg r)) = regs.x (creg r) :=
      (slot_eq_x_iff _).2 (.inl (creg_ne_zero r))
    cases i with
    | sb r | sh r | sw r | sd r => exact slot_eq_x_iff r
    | csw r | csd r => exact iff_of_true (hx r) trivial
    | cswsp r | csdsp r =>
      unfold storeReg
      rw [hx]
      rfl

end

/-- The instruction `bits` at an address that 4 divides. -/
def codeMem (bits : BitVec 32) : Nat → BitVec 8 := fun pa => bits.extractLsb' (8 * (pa % 4)) 8

/-- A frame with `sepc` at the start of guest RAM and the number of each register in it. -/
def numbered : CpuUserRegs :=
  CpuUserRegs.setSepc (fun i => BitVec.ofNat 64 i.val) 0x90000000

def guestRam : GuestRam := ⟨0x90000000, 0x8000000⟩

def uartRegion : MemRegion := ⟨0x20000000, 0, 0x1000, 0, true⟩

theorem uart_found : guestMemFindRegion (vcpuRegions guestRam) (0x20000000#64).toNat =
    some uartRegion := rfl

section

open RvIsa

variable {L : Layout} {mem : Nat → BitVec 8} {regions : List MemRegion} {region : MemRegion}
  {read : BitVec 64 → Nat → BitVec 64} {htinst faultAddr : BitVec 64} {regs : CpuUserRegs}
  {bits : BitVec 32} {source : Source}

/-- One call of the device's `read`, and its value extended in the destination. -/
def LoadMatches (L : Layout) (mem : Nat → BitVec 8) (regions : List MemRegion)
    (read : BitVec 64 → Nat → BitVec 64) (htinst : BitVec 64) (regs : CpuUserRegs)
    (faultAddr : BitVec 64) (i : Load) : Prop :=
  (vcpuEmulateMmio L mem regions read htinst regs faultAddr false).result =
    some (some ⟨[.read faultAddr i.width.bytes],
      (regs.setX i.dst (i.extend (read faultAddr i.width.bytes))).setSepc
        (regs.sepc + BitVec.ofNat 64 i.len)⟩)

/-- Writing `v` to register `a` is writing `w` to register `d`. -/
def SameWrite (regs : CpuUserRegs) (a d : BitVec 5) (v w : BitVec 64) : Prop :=
  if a = d then d = 0 ∨ w = v else (d = 0 ∨ regs.x d = w) ∧ (a = 0 ∨ regs.x a = v)

/-- The device returns what the register is to get, or the registers already hold the values. Only
for C.LW and C.LD from memory does the `rd` of the encoding differ from the destination. -/
def LoadTarget (regs : CpuUserRegs) (i : Load) (bits : BitVec 32) (v : BitVec 64) : Prop :=
  i.code ≠ 0b101 ∧ SameWrite regs (rd bits) i.dst v (i.extend v)

section

variable {a d : BitVec 5} {v w : BitVec 64}

theorem x_of_ne (h : d ≠ 0) : regs.x d = regs (xSlot d) := if_neg h

theorem setX_other {j : Fin 36} (h : d = 0 ∨ j ≠ xSlot d) : regs.setX d w j = regs j := by
  unfold CpuUserRegs.setX
  split
  · rfl
  · next hne => exact CpuUserRegs.set_ne regs w (h.resolve_left hne)

theorem setX_self (h : d ≠ 0) : regs.setX d w (xSlot d) = w := by
  unfold CpuUserRegs.setX
  rw [if_neg h, CpuUserRegs.set_same]

theorem sepc_setX : (regs.setX d w).sepc = regs.sepc := by
  by_cases hd : d = 0
  · exact setX_other (.inl hd)
  · exact setX_other (.inr (xSlot_ne_zero hd).symm)

/-- Two frames with the same `sepc` are equal when their registers are. -/
theorem setX_eq_iff : regs.setX a v = regs.setX d w ↔ SameWrite regs a d v w := by
  unfold SameWrite
  split
  · next hsame =>
    subst hsame
    constructor
    · intro h
      by_cases ha : a = 0
      · exact .inl ha
      · have hslot := congrFun h (xSlot a)
        rw [setX_self ha, setX_self ha] at hslot
        exact .inr hslot.symm
    · rintro (rfl | rfl) <;> rfl
  · next hdiff =>
    have hslots : xSlot a ≠ xSlot d := fun h => hdiff (xSlot_inj h)
    constructor
    · intro h
      constructor
      · by_cases hd : d = 0
        · exact .inl hd
        · have hslot := congrFun h (xSlot d)
          rw [setX_other (.inr hslots.symm), setX_self hd] at hslot
          exact .inr ((x_of_ne hd).trans hslot)
      · by_cases ha : a = 0
        · exact .inl ha
        · have hslot := congrFun h (xSlot a)
          rw [setX_self ha, setX_other (.inr hslots)] at hslot
          exact .inr ((x_of_ne ha).trans hslot.symm)
    · rintro ⟨hd, ha⟩
      have hkept {r : BitVec 5} {u : BitVec 64} (hr : r = 0 ∨ regs.x r = u) :
          regs.setX r u = regs := by
        funext j
        by_cases hzero : r = 0
        · exact setX_other (.inl hzero)
        · by_cases hj : j = xSlot r
          · rw [hj, setX_self hzero, ← hr.resolve_left hzero, x_of_ne hzero]
          · exact setX_other (.inr hj)
      rw [hkept hd, hkept ha]

theorem setSepc_setX_iff {s : BitVec 64} :
    (regs.setX a v).setSepc s = (regs.setX d w).setSepc s ↔ regs.setX a v = regs.setX d w := by
  constructor
  · intro h
    funext j
    by_cases hj : j = 0
    · rw [hj]
      exact (sepc_setX (d := a)).trans (sepc_setX (d := d)).symm
    · have hslot := congrFun h j
      rwa [CpuUserRegs.setSepc, CpuUserRegs.setSepc, CpuUserRegs.set_ne _ _ hj,
        CpuUserRegs.set_ne _ _ hj] at hslot
  · intro h
    rw [h]

end

/-- `SET_RD`, unless `rd` is x0. -/
theorem set_rd_eq (inst : BitVec 32) (v : BitVec 64) :
    (if instGetRd inst ≠ 0 then regs.set (regPtr inst 7) v else regs) = regs.setX (rd inst) v := by
  unfold CpuUserRegs.setX
  rw [regPtr_rd, ite_not]
  exact if_congr (instGetRd_eq_zero inst) rfl rfl

theorem Load.len_cases (i : Load) : i.len = 2 ∨ i.len = 4 := by
  cases i <;> simp [Load.len]

theorem Load.code_of_short {i : Load} (hlen : i.len = 2) : i.code ≠ 0b101 := by
  cases i <;> simp_all [Load.len, Load.code]

/-- What the emulation makes of a load that it is shown. -/
theorem load_shown (i : Load)
    (h : Shown L mem regs.sepc htinst bits i.len (i.Encodes bits) (i.Transformed bits) source) :
    (vcpuFetchInst L mem regs.sepc htinst).result = some bits ∧
      insnLen bits = BitVec.ofNat 64 i.len ∧
      instIsStore (decodeInst htinst bits) = false ∧
      instToAccessLen (decodeInst htinst bits) = (if i.code = 0b101 then 4 else i.width.bytes) ∧
      rd (decodeInst htinst bits) = rd bits := by
  cases source with
  | memory =>
    obtain ⟨henc, hmem, hlow⟩ := h
    rcases Load.len_cases i with hlen | hlen
    · obtain ⟨hlt, hq, -⟩ := henc.short hlen
      have hsame : decodeInst htinst bits = bits := decodeInst_of_quadrant (by
        rcases hq with hq | hq <;> rw [hq] <;> decide)
      obtain ⟨hshort, hload, hbytes⟩ := decode_cload i henc hlen
      rw [hsame, if_neg (Load.code_of_short hlen)]
      exact ⟨fetch_memory hmem hlow (.inl ⟨hlen, hshort, hlt⟩),
        insnLen_eq (.inl hlen) (by rw [hshort, decide_eq_true hlen]), hload, hbytes, rfl⟩
    · obtain ⟨hop, hf, -⟩ := henc.full hlen
      have hsame : decodeInst htinst bits = bits := decodeInst_of_quadrant (by
        rw [quadrant_of_opcode, hop]
        decide)
      obtain ⟨hfull, hload, hbytes⟩ := decode_load i hop hf
      rw [hsame]
      exact ⟨fetch_memory hmem hlow (.inr ⟨hlen, hfull⟩),
        insnLen_eq (.inr hlen) (by rw [hfull, hlen]; rfl), hload, hbytes, rfl⟩
  | htinst =>
    obtain ⟨⟨hop, hf, -⟩, hbits, hhigh⟩ := h
    have hne : bits ≠ 0 := by
      rintro rfl
      split at hop <;> cases hop
    obtain ⟨hop', hf', -, hrd, hlen⟩ :=
      decodeInst_htinst 0b00000 (htinst_ne_zero hbits hne) hop
    obtain ⟨-, hload, hbytes⟩ := decode_load i hop' (hf'.trans hf)
    exact ⟨fetch_htinst hbits hne hhigh, insnLen_eq (Load.len_cases i) hlen, hload, hbytes, hrd⟩

end

end HyperCore.Riscv64
