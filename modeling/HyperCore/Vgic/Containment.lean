import HyperCore.Vgic.State

/-!
# Where an access to the virtual GIC lands

`named` is the storage of the register that an address names: a member of the state,
or the row of one vCPU in a per-vCPU member. An access is contained when all bytes it
reads or writes lie there.

The handlers compare only the first byte of an access with the window. What they
touch is `accessSpan`, and it leaves the storage in two ways:

1. a bytewise access of `2 ^ len` bytes that starts at the end of a window runs on
   into the next array, or into the next vCPU's row;
2. the frame number is cut to 32 bits, so a frame past `2 ^ 32` is taken for one of
   the first four.

`InsideWindow` excludes these two, and containment holds exactly under it.
-/

namespace HyperCore.Vgic

open ByteMem MachineInt

/-! ## Registers and their storage -/

/-- A block of registers: its first offset, its size, and the member behind it. -/
structure Block where
  first : Nat
  size : Nat
  field : Field
deriving DecidableEq, Repr

/-- The distributor's registers that are backed by state. -/
def distBlocks : List Block :=
  [⟨0x0000, 4, .distCtlr⟩, ⟨0x0080, 128, .group⟩, ⟨0x0100, 128, .enable⟩, ⟨0x0180, 128, .enable⟩,
    ⟨0x0200, 128, .pending⟩, ⟨0x0280, 128, .pending⟩, ⟨0x0300, 128, .active⟩,
    ⟨0x0380, 128, .active⟩, ⟨0x0400, 1024, .priority⟩, ⟨0x0c00, 256, .config⟩,
    ⟨0x6000, 7936, .router⟩]

/-- The registers of a redistributor frame that are backed by state. -/
def frameBlocks : List Block :=
  [⟨0x00000, 4, .rCtlr⟩, ⟨0x00014, 4, .rWaker⟩, ⟨0x10080, 4, .rGroup⟩, ⟨0x10100, 4, .rEnable⟩,
    ⟨0x10180, 4, .rEnable⟩, ⟨0x10200, 4, .rPending⟩, ⟨0x10280, 4, .rPending⟩,
    ⟨0x10300, 4, .rActive⟩, ⟨0x10380, 4, .rActive⟩, ⟨0x10400, 32, .rPriority⟩,
    ⟨0x10c00, 8, .rConfig⟩]

/-- The member behind the register at `off`. -/
def blockField (blocks : List Block) (off : Nat) : Option Field :=
  (blocks.find? fun b => inRange off b.first b.size).map Block.field

/-- The bytes of row `row` of a member; the distributor's members have one row. -/
def Row (f : Field) (row : Nat) : Nat → Prop := Bytes (f.offset + row * f.rowSize) f.rowSize

/-- The storage of the register that `addr` names. -/
def Named (cfg : VgicConfig) (addr a : Nat) : Prop :=
  if inGicr cfg addr then
    ∃ f, blockField frameBlocks ((addr - cfg.gicrBase) % cfg.gicrStride) = some f ∧
      (addr - cfg.gicrBase) / cfg.gicrStride < hyperMaxVcpus ∧
      Row f ((addr - cfg.gicrBase) / cfg.gicrStride) a
  else ∃ f, blockField distBlocks (distOffset cfg addr) = some f ∧ Row f 0 a

/-- A guest access. -/
inductive Access
  | read
  | write (value : Nat)

/-- The handler that serves it. -/
def Access.run (cfg : VgicConfig) (addr len : Nat) : Access → MemM Nat
  | .read => gic3Read cfg addr len
  | .write value => do
    gic3Write cfg addr len value
    pure 0

/-- All bytes read or modified belong to the register that the address names. -/
def Contained (cfg : VgicConfig) (addr len : Nat) (acc : Access) : Prop :=
  ∀ bytes a, a ∈ (acc.run cfg addr len ⟨bytes, []⟩).2.touched → Named cfg addr a

/-! ## The condition -/

/-- Does the distributor serve the access byte by byte? -/
def Access.bytewise : Access → GicdMode → Bool
  | .read, _ => true
  | .write _, mode => mode == .rawBytes

/-- Is the window of a frame byte-addressed? -/
def GicrMode.bytewise (mode : GicrMode) : Bool := mode == .rawBytesPrio || mode == .rawBytesConfig

/-- A bytewise access ends inside the window in which it starts, and a frame that has
storage is named by its own number. -/
def InsideWindow (cfg : VgicConfig) (addr len : Nat) (acc : Access) : Prop :=
  if inGicr cfg addr then
    let index := (addr - cfg.gicrBase) / cfg.gicrStride
    let off := (addr - cfg.gicrBase) % cfg.gicrStride
    index % 2 ^ 32 < hyperMaxVcpus →
      (off < vgicRdistSgiBase → off = 0x0000 ∨ off = 0x0014 → index < hyperMaxVcpus) ∧
      (vgicRdistSgiBase ≤ off → ∀ w, gicrFind (off - vgicRdistSgiBase) = some w →
        index < hyperMaxVcpus ∧
          (w.mode.bytewise → off - vgicRdistSgiBase + 2 ^ len ≤ w.base + w.span))
  else
    ∀ w, gicdFind (distOffset cfg addr) = some w → acc.bytewise w.mode →
      distOffset cfg addr + 2 ^ len ≤ w.base + w.span

/-! ## The bytes an access touches -/

def distTouched (acc : Access) (off len a : Nat) : Prop :=
  (off = 0x0000 ∧ Bytes Field.distCtlr.offset 4 a) ∨
    ∃ w, gicdFind off = some w ∧
      if acc.bytewise w.mode then Bytes (w.bytes + (off - w.base)) (2 ^ len) a
      else Bytes (w.bytes + 4 * ((off - w.base) / 4)) 4 a

def sgiTouched (frame off len a : Nat) : Prop :=
  ∃ w, gicrFind off = some w ∧
    if w.mode.bytewise then Bytes (w.fieldOff + frame * w.span + (off - w.base)) (2 ^ len) a
    else Bytes (w.fieldOff + 4 * frame) 4 a

def frameTouched (frame off len a : Nat) : Prop :=
  if vgicRdistSgiBase ≤ off then sgiTouched frame (off - vgicRdistSgiBase) len a
  else (off = 0x0000 ∧ Bytes (Field.rCtlr.offset + 4 * frame) 4 a) ∨
    (off = 0x0014 ∧ Bytes (Field.rWaker.offset + 4 * frame) 4 a)

/-- What an access touches, for every state and every value. -/
def accessSpan (cfg : VgicConfig) (addr len : Nat) (acc : Access) (a : Nat) : Prop :=
  if inGicr cfg addr then
    frameIndex cfg addr < hyperMaxVcpus ∧
      frameTouched (frameIndex cfg addr) (frameOffset cfg addr) len a
  else distTouched acc (distOffset cfg addr) len a

theorem touches_setWord (a value : Nat) : Touches (setWord a value) (Bytes a 4) :=
  .bind (.load a 4) fun _ => .store a _ 4

theorem touches_clearWord (a value : Nat) : Touches (clearWord a value) (Bytes a 4) :=
  .bind (.load a 4) fun _ => .store a _ 4

/-- Each window of `gicd_table` covers a register block and its member. -/
theorem gicdTable_blocks : ∀ w ∈ gicdTable, ∃ b ∈ distBlocks,
    w.base = b.first ∧ w.span = b.size ∧ w.bytes = b.field.offset ∧ b.size = b.field.rowSize ∧
      b.size % 4 = 0 ∧ 0x80 ≤ b.first ∧ b.first + b.size ≤ gicdPidr2 := by
  decide

/-- Each window of `gicr_table` covers a register block and one row of its member. -/
theorem gicrTable_blocks : ∀ w ∈ gicrTable, ∃ b ∈ frameBlocks,
    vgicRdistSgiBase + w.base = b.first ∧ w.span = b.size ∧ w.fieldOff = b.field.offset ∧
      b.size = b.field.rowSize ∧ b.size < 2 ^ 32 ∧
      (w.mode = .rawBytesPrio → w.span = 32) ∧ (w.mode = .rawBytesConfig → w.span = 8) ∧
      (w.mode.bytewise = false → w.span = 4) := by
  decide

theorem blockField_eq {blocks : List Block} {off : Nat}
    (hapart : ∀ b ∈ blocks, ∀ c ∈ blocks,
      b.first + b.size ≤ c.first ∨ c.first + c.size ≤ b.first ∨ b = c)
    {b : Block} (hb : b ∈ blocks) (hin : b.first ≤ off ∧ off < b.first + b.size) :
    blockField blocks off = some b.field := by
  rw [blockField, find?_inRange hapart hb hin, Option.map_some]

theorem gicdFind_some {off : Nat} {w : GicdWindow} (h : gicdFind off = some w) :
    ∃ f, blockField distBlocks off = some f ∧ w.bytes = f.offset ∧ w.span = f.rowSize ∧
      w.span % 4 = 0 ∧ w.base ≤ off ∧ off < w.base + w.span ∧ 0x80 ≤ off ∧ off < gicdPidr2 := by
  have hin := List.find?_some h
  simp only [inRange_iff] at hin
  obtain ⟨b, hb, h1, h2, h3, h4, h5, h6, h7⟩ := gicdTable_blocks w (List.mem_of_find?_eq_some h)
  have hfield : blockField distBlocks off = some b.field :=
    blockField_eq (by decide) hb (by omega)
  exact ⟨b.field, hfield, h3, by omega, by omega, hin.1, hin.2, by omega, by omega⟩

theorem gicrFind_some {off : Nat} {w : GicrWindow} (h : gicrFind off = some w) :
    ∃ f, blockField frameBlocks (vgicRdistSgiBase + off) = some f ∧ w.fieldOff = f.offset ∧
      w.span = f.rowSize ∧ w.base ≤ off ∧ off < w.base + w.span ∧ w.span < 2 ^ 32 ∧
      (w.mode = .rawBytesPrio → w.span = 32) ∧ (w.mode = .rawBytesConfig → w.span = 8) ∧
      (w.mode.bytewise = false → w.span = 4) := by
  have hin := List.find?_some h
  simp only [inRange_iff] at hin
  obtain ⟨b, hb, h1, h2, h3, h4, h5, h6, h7, h8⟩ :=
    gicrTable_blocks w (List.mem_of_find?_eq_some h)
  have hfield : blockField frameBlocks (vgicRdistSgiBase + off) = some b.field :=
    blockField_eq (by decide) hb (by omega)
  exact ⟨b.field, hfield, h3, by omega, hin.1, hin.2, by omega, h6, h7, h8⟩

/-- An offset that `dist_read` or `dist_write` serves without the table. -/
theorem gicdFind_outside {off : Nat} (h : off < 0x80 ∨ gicdPidr2 ≤ off) : gicdFind off = none := by
  cases hf : gicdFind off with
  | none => rfl
  | some w =>
    obtain ⟨f, -, -, -, -, -, -, h1, h2⟩ := gicdFind_some hf
    omega

theorem touches_distRead (off len : Nat) :
    Touches (distRead off len) (distTouched .read off len) := by
  have quiet : ∀ v, off ≠ 0x0000 → gicdFind off = none →
      Touches (pure v : MemM Nat) (distTouched .read off len) := by
    intro v h0 hnone
    refine (Touches.pure v).congr fun a => ?_
    simp [distTouched, h0, hnone]
  unfold distRead
  split
  · next h0 =>
    refine (Touches.load _ 4).congr fun a => ?_
    simp [distTouched, h0, gicdFind_outside]
  · next h0 =>
    split
    · next h => exact quiet _ h0 (gicdFind_outside (by omega))
    · split
      · next h => exact quiet _ h0 (gicdFind_outside (by omega))
      · split
        · next h => exact quiet _ h0 (gicdFind_outside (by omega))
        · split
          · next w hw =>
            obtain ⟨f, -, -, -, -, h1, h2, -, h3⟩ := gicdFind_some hw
            have hoff : toUInt32 (off - w.base : Nat) = off - w.base :=
              toUInt32_of_lt (by simp only [gicdPidr2] at h3; omega)
            refine (Touches.load _ _).congr fun a => ?_
            rw [hoff, accessSize, Nat.one_shiftLeft]
            simp [distTouched, h0, hw, Access.bytewise]
          · next hnone => exact quiet _ h0 hnone

theorem touches_distWrite (off len value : Nat) :
    Touches (distWrite off len value) (distTouched (.write value) off len) := by
  unfold distWrite
  split
  · next h0 =>
    refine (Touches.store _ _ 4).congr fun a => ?_
    simp [distTouched, h0, gicdFind_outside]
  · next h0 =>
    split
    · next w hw =>
      obtain ⟨f, -, -, -, -, h1, h2, -, h3⟩ := gicdFind_some hw
      simp only [gicdPidr2] at h3
      have hoff : toUInt32 (off - w.base : Nat) = off - w.base := toUInt32_of_lt (by omega)
      have hreg : regIndex off w.base = (off - w.base) / 4 := toUInt32_of_lt (by omega)
      split
      · next hmode =>
        refine (Touches.store _ _ _).congr fun a => ?_
        rw [hoff, accessSize, Nat.one_shiftLeft]
        simp [distTouched, h0, hw, Access.bytewise, hmode]
      · next hmode =>
        refine (touches_setWord _ _).congr fun a => ?_
        rw [hreg]
        simp [distTouched, h0, hw, Access.bytewise, hmode]
      · next hmode =>
        refine (touches_clearWord _ _).congr fun a => ?_
        rw [hreg]
        simp [distTouched, h0, hw, Access.bytewise, hmode]
    · next hnone =>
      refine (Touches.pure ()).congr fun a => ?_
      simp [distTouched, h0, hnone]

theorem touches_redistSgiRead {frame : Nat} (hframe : frame < hyperMaxVcpus) (off len : Nat) :
    Touches (redistSgiRead frame off len) (sgiTouched frame off len) := by
  unfold redistSgiRead
  rw [if_neg (Nat.not_le.mpr hframe)]
  split
  · next w hw =>
    obtain ⟨f, -, -, -, h1, h2, h3, h4, h5, -⟩ := gicrFind_some hw
    have hoff : toUInt32 (off - w.base : Nat) = off - w.base := toUInt32_of_lt (by omega)
    split
    · next hmode =>
      refine (Touches.load _ _).congr fun a => ?_
      rw [hoff, accessSize, Nat.one_shiftLeft]
      simp [sgiTouched, hw, GicrMode.bytewise, hmode, redistByteArray, h4]
    · next hmode =>
      refine (Touches.load _ _).congr fun a => ?_
      rw [hoff, accessSize, Nat.one_shiftLeft]
      simp [sgiTouched, hw, GicrMode.bytewise, hmode, redistByteArray, h5]
    all_goals
      next hmode =>
      refine (Touches.load _ 4).congr fun a => ?_
      simp [sgiTouched, hw, GicrMode.bytewise, hmode, redistWordField]
  · next hnone =>
    refine (Touches.pure 0).congr fun a => ?_
    simp [sgiTouched, hnone]

theorem touches_redistSgiWrite {frame : Nat} (hframe : frame < hyperMaxVcpus)
    (off len value : Nat) :
    Touches (redistSgiWrite frame off len value) (sgiTouched frame off len) := by
  unfold redistSgiWrite
  rw [if_neg (Nat.not_le.mpr hframe)]
  split
  · next w hw =>
    obtain ⟨f, -, -, -, h1, h2, h3, h4, h5, -⟩ := gicrFind_some hw
    have hoff : toUInt32 (off - w.base : Nat) = off - w.base := toUInt32_of_lt (by omega)
    split
    · next hmode =>
      refine (Touches.store _ _ 4).congr fun a => ?_
      simp [sgiTouched, hw, GicrMode.bytewise, hmode, redistWordField]
    · next hmode =>
      refine (touches_setWord _ _).congr fun a => ?_
      simp [sgiTouched, hw, GicrMode.bytewise, hmode, redistWordField]
    · next hmode =>
      refine (touches_clearWord _ _).congr fun a => ?_
      simp [sgiTouched, hw, GicrMode.bytewise, hmode, redistWordField]
    · next hmode =>
      refine (Touches.store _ _ _).congr fun a => ?_
      rw [hoff, accessSize, Nat.one_shiftLeft]
      simp [sgiTouched, hw, GicrMode.bytewise, hmode, redistByteArray, h4]
    · next hmode =>
      refine (Touches.store _ _ _).congr fun a => ?_
      rw [hoff, accessSize, Nat.one_shiftLeft]
      simp [sgiTouched, hw, GicrMode.bytewise, hmode, redistByteArray, h5]
  · next hnone =>
    refine (Touches.pure ()).congr fun a => ?_
    simp [sgiTouched, hnone]

theorem touches_redistRead (cfg : VgicConfig) (addr len : Nat) :
    Touches (redistRead cfg addr len) fun a => frameIndex cfg addr < hyperMaxVcpus ∧
      frameTouched (frameIndex cfg addr) (frameOffset cfg addr) len a := by
  simp only [redistRead]
  split
  · next hframe =>
    refine (Touches.pure 0).congr fun a => ?_
    simp [Nat.not_lt.mpr hframe]
  · next hframe =>
    have hframe := Nat.not_le.mp hframe
    split
    · next hoff =>
      refine (touches_redistSgiRead hframe _ len).congr fun a => ?_
      simp [frameTouched, hframe, hoff]
    · next hoff =>
      split
      · next h0 =>
        refine (Touches.load _ 4).congr fun a => ?_
        simp [frameTouched, hframe, h0, vgicRdistSgiBase]
      · next h0 =>
        have quiet : ∀ v, frameOffset cfg addr ≠ 0x0014 → Touches (pure v : MemM Nat) fun a =>
            frameIndex cfg addr < hyperMaxVcpus ∧
              frameTouched (frameIndex cfg addr) (frameOffset cfg addr) len a := by
          intro v h14
          refine (Touches.pure v).congr fun a => ?_
          simp [frameTouched, hoff, h0, h14]
        split
        · next h => exact quiet _ (by omega)
        · split
          · next h => exact quiet _ (by omega)
          · split
            · next h14 =>
              refine (Touches.map (.load _ 4) fun _ => .pure _).congr fun a => ?_
              simp [frameTouched, hframe, h14, vgicRdistSgiBase]
            · next h14 =>
              split
              · exact quiet _ h14
              · exact quiet _ h14

theorem touches_redistWrite (cfg : VgicConfig) (addr len value : Nat) :
    Touches (redistWrite cfg addr len value) fun a => frameIndex cfg addr < hyperMaxVcpus ∧
      frameTouched (frameIndex cfg addr) (frameOffset cfg addr) len a := by
  simp only [redistWrite]
  split
  · next hframe =>
    refine (Touches.pure ()).congr fun a => ?_
    simp [Nat.not_lt.mpr hframe]
  · next hframe =>
    have hframe := Nat.not_le.mp hframe
    split
    · next hoff =>
      refine (touches_redistSgiWrite hframe _ len value).congr fun a => ?_
      simp [frameTouched, hframe, hoff]
    · next hoff =>
      split
      · next h0 =>
        refine (Touches.store _ _ 4).congr fun a => ?_
        simp [frameTouched, hframe, h0, vgicRdistSgiBase]
      · next h0 =>
        split
        · next h14 =>
          refine (Touches.store _ _ 4).congr fun a => ?_
          simp [frameTouched, hframe, h14, vgicRdistSgiBase]
        · next h14 =>
          refine (Touches.pure ()).congr fun a => ?_
          simp [frameTouched, hoff, h0, h14]

/-- What an access touches depends on its address, its size and its direction only. -/
theorem touches_access (cfg : VgicConfig) (addr len : Nat) (acc : Access) :
    Touches (acc.run cfg addr len) (accessSpan cfg addr len acc) := by
  cases acc with
  | read =>
    simp only [Access.run, gic3Read]
    split
    · next h => exact (touches_redistRead cfg addr len).congr fun a => by simp [accessSpan, h]
    · next h => exact (touches_distRead _ len).congr fun a => by simp [accessSpan, h]
  | write value =>
    refine Touches.map ?_ fun _ => .pure 0
    simp only [gic3Write]
    split
    · next h =>
      exact (touches_redistWrite cfg addr len value).congr fun a => by simp [accessSpan, h]
    · next h => exact (touches_distWrite _ len value).congr fun a => by simp [accessSpan, h]

/-! ## Containment -/

/-- Bytes inside a row, at the start of a nonempty span. -/
theorem bytes_subset_iff {start n base size : Nat} (hn : 0 < n) (hlo : base ≤ start) :
    (∀ a, Bytes start n a → Bytes base size a) ↔ start + n ≤ base + size := by
  refine ⟨fun h => ?_, fun h a ha => ⟨Nat.le_trans hlo ha.1, Nat.lt_of_lt_of_le ha.2 h⟩⟩
  have hlast := (h (start + n - 1) ⟨by omega, by omega⟩).2
  omega

theorem dist_contained_iff (acc : Access) (off len : Nat) :
    (∀ a, distTouched acc off len a → ∃ f, blockField distBlocks off = some f ∧ Row f 0 a) ↔
      ∀ w, gicdFind off = some w → acc.bytewise w.mode → off + 2 ^ len ≤ w.base + w.span := by
  have hlen := Nat.two_pow_pos len
  cases hw : gicdFind off with
  | none =>
    refine ⟨fun _ w h => (nomatch h), fun _ a ha => ?_⟩
    rcases ha with ⟨rfl, ha⟩ | ⟨w, hw', -⟩
    · exact ⟨.distCtlr, rfl, ha⟩
    · rw [hw] at hw'
      cases hw'
  | some w =>
    obtain ⟨f, hf, hbytes, hspan, hmod, h1, h2, h3, -⟩ := gicdFind_some hw
    have hnamed : ∀ a, (∃ g, blockField distBlocks off = some g ∧ Row g 0 a) ↔
        Bytes w.bytes w.span a := by
      intro a
      simp [hf, Row, hbytes, hspan]
    have htouched : ∀ a, distTouched acc off len a ↔
        if acc.bytewise w.mode then Bytes (w.bytes + (off - w.base)) (2 ^ len) a
        else Bytes (w.bytes + 4 * ((off - w.base) / 4)) 4 a := by
      intro a
      simp [distTouched, hw, show off ≠ 0 by omega]
    simp only [hnamed, htouched, Option.some.injEq, forall_eq']
    cases hmode : acc.bytewise w.mode with
    | true =>
      simp only [if_true, true_implies]
      rw [bytes_subset_iff hlen (Nat.le_add_right _ _)]
      omega
    | false =>
      simp only [Bool.false_eq_true, if_false, false_implies, iff_true]
      rw [bytes_subset_iff (by decide) (Nat.le_add_right _ _)]
      omega

theorem sgi_contained_iff (index off len : Nat) :
    (∀ a, sgiTouched (index % 2 ^ 32) off len a →
      ∃ f, blockField frameBlocks (vgicRdistSgiBase + off) = some f ∧ index < hyperMaxVcpus ∧
        Row f index a) ↔
      ∀ w, gicrFind off = some w →
        index < hyperMaxVcpus ∧ (w.mode.bytewise → off + 2 ^ len ≤ w.base + w.span) := by
  have hlen := Nat.two_pow_pos len
  cases hw : gicrFind off with
  | none =>
    refine ⟨fun _ w h => (nomatch h), fun _ a ha => ?_⟩
    obtain ⟨w, hw', -⟩ := ha
    rw [hw] at hw'
    cases hw'
  | some w =>
    obtain ⟨f, hf, hbytes, hspan, h1, h2, -, -, -, h4⟩ := gicrFind_some hw
    have htouched : ∀ a, sgiTouched (index % 2 ^ 32) off len a ↔
        if w.mode.bytewise then
          Bytes (w.fieldOff + index % 2 ^ 32 * w.span + (off - w.base)) (2 ^ len) a
        else Bytes (w.fieldOff + 4 * (index % 2 ^ 32)) 4 a := by
      intro a
      simp [sgiTouched, hw]
    simp only [htouched, hf, Option.some.injEq, exists_eq_left', forall_eq']
    by_cases hlt : index < hyperMaxVcpus
    · have hmod : index % 2 ^ 32 = index :=
        Nat.mod_eq_of_lt (Nat.lt_trans hlt (by decide))
      simp only [hlt, true_and, hmod, Row, ← hbytes, ← hspan]
      cases hmode : w.mode.bytewise with
      | true =>
        simp only [if_true, true_implies]
        rw [bytes_subset_iff hlen (Nat.le_add_right _ _)]
        omega
      | false =>
        simp only [Bool.false_eq_true, if_false, false_implies, iff_true]
        rw [h4 hmode, Nat.mul_comm 4]
        exact fun _ ha => ha
    · -- a frame past the last vCPU has no storage, and the access touches some byte
      simp only [hlt, false_and, iff_false]
      intro hsub
      cases hmode : w.mode.bytewise with
      | true =>
        rw [hmode] at hsub
        exact hsub _ (by rw [if_pos rfl]; exact ⟨Nat.le_refl _, Nat.lt_add_of_pos_right hlen⟩)
      | false =>
        rw [hmode] at hsub
        exact hsub _ ⟨Nat.le_refl _, Nat.lt_add_of_pos_right (by decide)⟩

/-- The members behind the registers of the first 64 KB of a frame. -/
theorem rd_contained_iff (index off : Nat) :
    (∀ a, ((off = 0x0000 ∧ Bytes (Field.rCtlr.offset + 4 * (index % 2 ^ 32)) 4 a) ∨
        (off = 0x0014 ∧ Bytes (Field.rWaker.offset + 4 * (index % 2 ^ 32)) 4 a)) →
      ∃ f, blockField frameBlocks off = some f ∧ index < hyperMaxVcpus ∧ Row f index a) ↔
      (off = 0x0000 ∨ off = 0x0014 → index < hyperMaxVcpus) := by
  have hself : ∀ b, Bytes b 4 b := fun b => ⟨Nat.le_refl _, Nat.lt_add_of_pos_right (by decide)⟩
  refine ⟨fun h hoff => ?_, fun h a ha => ?_⟩
  · rcases hoff with h0 | h14
    · obtain ⟨-, -, hlt, -⟩ := h _ (.inl ⟨h0, hself _⟩)
      exact hlt
    · obtain ⟨-, -, hlt, -⟩ := h _ (.inr ⟨h14, hself _⟩)
      exact hlt
  · have hmod : index < hyperMaxVcpus → index % 2 ^ 32 = index := fun hlt =>
      Nat.mod_eq_of_lt (Nat.lt_trans hlt (by decide))
    rcases ha with ⟨rfl, ha⟩ | ⟨rfl, ha⟩
    · have hlt := h (.inl rfl)
      rw [hmod hlt, Nat.mul_comm] at ha
      exact ⟨.rCtlr, rfl, hlt, ha⟩
    · have hlt := h (.inr rfl)
      rw [hmod hlt, Nat.mul_comm] at ha
      exact ⟨.rWaker, rfl, hlt, ha⟩

/-- An access of the guest stays in the storage of the register it names exactly when
it ends inside its window and its frame number survives the cut to 32 bits. -/
theorem contained_iff_insideWindow (cfg : VgicConfig) (addr len : Nat) (acc : Access) :
    Contained cfg addr len acc ↔ InsideWindow cfg addr len acc := by
  have hspan : Contained cfg addr len acc ↔
      ∀ a, accessSpan cfg addr len acc a → Named cfg addr a := by
    have htouch := touches_access cfg addr len acc
    refine ⟨fun h a ha => h (fun _ => 0) a ((htouch _ a).mpr (.inl ha)), fun h bytes a ha => ?_⟩
    rcases (htouch _ a).mp ha with hs | hs
    · exact h a hs
    · cases hs
  rw [hspan]
  cases hin : inGicr cfg addr with
  | false =>
    simp only [accessSpan, Named, InsideWindow, hin, Bool.false_eq_true, if_false]
    exact dist_contained_iff acc _ len
  | true =>
    obtain ⟨hframe, hoff⟩ := frameIndex_eq hin
    simp only [accessSpan, Named, InsideWindow, hin, if_true, hframe, hoff, and_imp]
    by_cases hindex : (addr - cfg.gicrBase) / cfg.gicrStride % 2 ^ 32 < hyperMaxVcpus
    · simp only [hindex, true_implies]
      by_cases hsgi : vgicRdistSgiBase ≤ (addr - cfg.gicrBase) % cfg.gicrStride
      · have hsplit : vgicRdistSgiBase + ((addr - cfg.gicrBase) % cfg.gicrStride -
            vgicRdistSgiBase) = (addr - cfg.gicrBase) % cfg.gicrStride := by omega
        have hiff := sgi_contained_iff ((addr - cfg.gicrBase) / cfg.gicrStride)
          ((addr - cfg.gicrBase) % cfg.gicrStride - vgicRdistSgiBase) len
        rw [hsplit] at hiff
        simp only [frameTouched, hsgi, if_true, Nat.not_lt.mpr hsgi, false_implies, true_and,
          true_implies]
        exact hiff
      · simp only [frameTouched, hsgi, if_false, Nat.not_le.mp hsgi, false_implies, and_true,
          true_implies]
        exact rd_contained_iff _ _
    · simp only [hindex, false_implies, implies_true]

/-- The last priority byte of the last frame. -/
theorem last_priority : inGicr qemuVgic 0x0811041f = true ∧
    frameIndex qemuVgic 0x0811041f = 3 ∧ frameOffset qemuVgic 0x0811041f = 0x1041f := by
  have hin : inGicr qemuVgic 0x0811041f = true := by
    simp [inGicr, qemuVgic, toUInt64]
  obtain ⟨h1, h2⟩ := frameIndex_eq hin
  refine ⟨hin, ?_, ?_⟩
  · rw [h1]
    simp [qemuVgic]
  · rw [h2]
    simp [qemuVgic]

/-- An eight-byte write there touches the byte after the end of the state. -/
theorem write_past_state :
    ¬ ∀ cfg addr len acc, cfg.gicrStride ≠ 0 → len ≤ 3 → Contained cfg addr len acc := by
  intro h
  obtain ⟨hin, hframe, hoff⟩ := last_priority
  have htouched : accessSpan qemuVgic 0x0811041f 3 (.write 0) 9992 := by
    rw [accessSpan, if_pos hin, hframe, hoff]
    refine ⟨by decide, ?_⟩
    rw [frameTouched, if_pos (by decide)]
    exact ⟨_, rfl, by decide, by decide⟩
  have hnamed := h qemuVgic 0x0811041f 3 (.write 0) (by decide) (by decide) (fun _ => 0) 9992
    ((touches_access _ _ _ _ _ _).mpr (.inl htouched))
  rw [Named, if_pos hin] at hnamed
  obtain ⟨f, hfield, hindex, hrow⟩ := hnamed
  rw [← (frameIndex_eq hin).2, hoff] at hfield
  have hprio : blockField frameBlocks 0x1041f = some .rPriority := by decide
  cases hprio.symm.trans hfield
  have hlast : 9992 < 9864 + (0x0811041f - qemuVgic.gicrBase) / qemuVgic.gicrStride * 32 + 32 :=
    hrow.2
  simp only [hyperMaxVcpus] at hindex
  omega

end HyperCore.Vgic
