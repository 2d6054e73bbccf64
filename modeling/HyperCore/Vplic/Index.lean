import HyperCore.Vplic.State

/-!
# Which accesses of the PLIC are inside their array

`vplic_irq_valid` accepts irq 128, `VPLIC_WORDS` has words for the irqs 0 to 127. The
scan over all irqs therefore ends one word past `pending`, at `enable[0][0]`, unless an
earlier irq stops it, and a claim always gets there.

| access of irq 128 | names           |
|-------------------|-----------------|
| `pending[4]`      | `enable[0][0]`  |
| `enable[c][4]`    | `enable[c+1][0]`, for the last context `threshold[0]` |

Bit 0 of these words is the enable bit of irq 0, which does not exist, so a guest that sets it
claims an interrupt that no device has raised. `vplic_index_safety` says exactly when an
operation stays inside the arrays and when a claim returns an irq that is outstanding.

`Reads` is the rule system of the proofs: the value of a computation that stores nothing,
and the condition under which the accesses it adds to the log are in bounds.
-/

namespace HyperCore.Vplic

/-! ## The bits and words of an irq -/

def pendingBit (r : Regs) (irq : Nat) : Bool :=
  (r (Ref.pending (irq / 32)).offset).getLsbD (irq % 32)

def enabledBit (r : Regs) (context irq : Nat) : Bool :=
  (r (Ref.enable context (irq / 32)).offset).getLsbD (irq % 32)

def priorityOf (r : Regs) (irq : Nat) : Word := r (Ref.priority irq).offset

def thresholdOf (r : Regs) (context : Nat) : Word := r (Ref.threshold context).offset

/-- The answer of `vplic_irq_deliverable_locked`. -/
def deliverable (r : Regs) (context irq : Nat) : Bool :=
  vplicIrqValid irq && pendingBit r irq && (decide (context < vplicContexts) &&
    enabledBit r context irq) && decide (thresholdOf r context < priorityOf r irq)

/-- The answer of `vplic_context_has_deliverable_locked`. -/
def hasDeliverable (r : Regs) (context : Nat) : Bool :=
  (List.range' 1 plicMaxIrq).any (deliverable r context)

/-- Every context has a deliverable irq that has a word of its own. -/
def Covered (r : Regs) : Prop :=
  ∀ c, c < vplicContexts → ∃ irq, irq < plicMaxIrq ∧ deliverable r c irq = true

theorem vplicIrqValid_iff {irq : Nat} : vplicIrqValid irq = true ↔ 0 < irq ∧ irq ≤ plicMaxIrq := by
  simp [vplicIrqValid]

theorem deliverable_valid {r : Regs} {context irq : Nat} (h : deliverable r context irq = true) :
    0 < irq ∧ irq ≤ plicMaxIrq := by
  simp only [deliverable, Bool.and_eq_true] at h
  exact vplicIrqValid_iff.mp h.1.1.1

theorem deliverable_pending {r : Regs} {context irq : Nat} (h : deliverable r context irq = true) :
    pendingBit r irq = true := by
  simp only [deliverable, Bool.and_eq_true] at h
  exact h.1.1.2

theorem deliverable_above {r : Regs} {context irq : Nat} (h : deliverable r context irq = true) :
    thresholdOf r context < priorityOf r irq := by
  simp only [deliverable, Bool.and_eq_true, decide_eq_true_eq] at h
  exact h.2

/-! ## Computations that only read -/

/-- All accesses so far were in bounds. -/
def Plic.Clean (s : Plic) : Prop := ∀ ref ∈ s.log, ref.InBounds

/-- `m` returns `val`, stores nothing, and adds only accesses in bounds iff `safe`. -/
def Reads {α : Type} (m : PlicM α) (val : Regs → α) (safe : Regs → Prop) : Prop :=
  ∀ s, (m s).1 = val s.regs ∧ (m s).2.regs = s.regs ∧ ((m s).2.Clean ↔ s.Clean ∧ safe s.regs)

section

variable {α β : Type} {m : PlicM α} {val : Regs → α} {safe : Regs → Prop}

theorem Reads.pure (a : α) : Reads (pure a) (fun _ => a) fun _ => True :=
  fun _ => ⟨rfl, rfl, (and_iff_left trivial).symm⟩

theorem Reads.load (ref : Ref) : Reads (load ref) (fun r => r ref.offset) fun _ => ref.InBounds := by
  intro s
  refine ⟨rfl, rfl, ?_⟩
  change (∀ r ∈ ref :: s.log, r.InBounds) ↔ _
  rw [List.forall_mem_cons]
  exact and_comm

theorem Reads.bind {f : α → PlicM β} {val' : α → Regs → β} {safe' : α → Regs → Prop}
    (hm : Reads m val safe) (hf : ∀ a, Reads (f a) (val' a) (safe' a)) :
    Reads (m >>= f) (fun r => val' (val r) r) fun r => safe r ∧ safe' (val r) r := by
  intro s
  obtain ⟨hv, hr, hc⟩ := hm s
  obtain ⟨hv', hr', hc'⟩ := hf (m s).1 (m s).2
  refine ⟨?_, hr'.trans hr, ?_⟩
  · change (f (m s).1 (m s).2).1 = _
    rw [hv', hr, hv]
  · change (f (m s).1 (m s).2).2.Clean ↔ _
    rw [hc', hc, hr, hv, and_assoc]

theorem Reads.ite {c : Prop} [Decidable c] {m' : PlicM α} {val' : Regs → α}
    {safe' : Regs → Prop} (h : c → Reads m val safe) (h' : ¬ c → Reads m' val' safe') :
    Reads (if c then m else m') (fun r => if c then val r else val' r)
      fun r => if c then safe r else safe' r := by
  split
  · next hc => exact h hc
  · next hc => exact h' hc

theorem Reads.congr {val' : Regs → α} {safe' : Regs → Prop} (h : Reads m val safe)
    (hval : ∀ r, val r = val' r) (hsafe : ∀ r, safe r ↔ safe' r) : Reads m val' safe' := by
  intro s
  rw [← hval, ← hsafe]
  exact h s

end

theorem reads_pending (irq : Nat) : Reads (vplicIrqPendingLocked irq) (fun r => pendingBit r irq)
    fun _ => irq / 32 < vplicWords :=
  ((Reads.load _).bind fun _ => .pure _).congr (fun _ => rfl) fun _ => and_iff_left trivial

theorem reads_enabled (context irq : Nat) : Reads (vplicIrqEnabledLocked context irq)
    (fun r => decide (context < vplicContexts) && enabledBit r context irq)
    fun _ => context < vplicContexts → irq / 32 < vplicWords := by
  refine ((Reads.ite (fun _ => .pure false) fun _ => (Reads.load _).bind fun _ => .pure _)).congr ?_ ?_
  · intro r
    split
    · next h => simp [Nat.not_lt.mpr h]
    · next h => simp [Nat.lt_of_not_le h, enabledBit]
  · intro r
    split
    · next h => simp [Nat.not_lt.mpr h]
    · next h => simp [Nat.lt_of_not_le h, Ref.InBounds]

/-- An irq that is asked about costs an access past the end exactly if it is the last one. -/
theorem reads_deliverable (context irq : Nat) : Reads (vplicIrqDeliverableLocked context irq)
    (fun r => deliverable r context irq) fun _ => irq ≠ plicMaxIrq := by
  refine (Reads.ite (fun _ => .pure false) fun _ => (reads_pending irq).bind fun _ =>
    .ite (fun _ => .pure false) fun _ => (reads_enabled context irq).bind fun _ =>
    .ite (fun _ => .pure false) fun _ => (Reads.load _).bind fun _ =>
    (Reads.load _).bind fun _ => .pure _).congr ?_ ?_
  · intro r
    unfold deliverable
    cases vplicIrqValid irq <;> cases pendingBit r irq <;>
      cases decide (context < vplicContexts) && enabledBit r context irq <;> rfl
  · intro r
    cases hv : vplicIrqValid irq with
    | false =>
      have hne : irq ≠ plicMaxIrq := by
        rintro rfl
        cases hv
      simp [hne]
    | true =>
      obtain ⟨hpos, hle⟩ := vplicIrqValid_iff.mp hv
      have hword : irq / 32 < vplicWords ↔ irq ≠ plicMaxIrq := by
        simp only [vplicWords, plicMaxIrq] at *
        omega
      cases hp : pendingBit r irq with
      | false => simpa using hword
      | true =>
        cases he : decide (context < vplicContexts) && enabledBit r context irq with
        | false => simpa [hword] using fun h _ => h
        | true =>
          rw [Bool.and_eq_true, decide_eq_true_eq] at he
          simp [hword, Ref.InBounds, he.1, Nat.lt_succ_of_le hle]

/-- The scan stops at the first deliverable irq, so it stays in bounds iff there is one before
the last. -/
theorem reads_hasDeliverableFrom {context irq n : Nat} (hn : irq + n = plicMaxIrq)
    (h0 : 0 < irq) : Reads (hasDeliverableFrom context irq (n + 1))
    (fun r => (List.range' irq (n + 1)).any (deliverable r context))
    fun r => ∃ i, irq ≤ i ∧ i < plicMaxIrq ∧ deliverable r context i = true := by
  induction n generalizing irq with
  | zero =>
    have hirq : irq = plicMaxIrq := hn
    refine ((reads_deliverable context irq).bind fun _ => .ite (fun _ => .pure true)
      fun _ => .pure false).congr (fun r => ?_) fun r => ?_
    · change _ = List.any [irq] _
      rw [List.any_cons, List.any_nil, Bool.or_false]
      cases deliverable r context irq <;> rfl
    · refine iff_of_false (fun h => h.1 hirq) ?_
      rintro ⟨i, hle, hlt, -⟩
      exact absurd (Nat.lt_of_le_of_lt hle hlt) (by rw [hirq]; exact Nat.lt_irrefl _)
  | succ n ih =>
    have hnext : irq + 1 + n = plicMaxIrq := by omega
    refine ((reads_deliverable context irq).bind fun _ => .ite (fun _ => .pure true)
      fun _ => ih hnext (Nat.succ_pos _)).congr (fun r => ?_) fun r => ?_
    · change _ = List.any (irq :: List.range' (irq + 1) (n + 1)) _
      rw [List.any_cons]
      cases deliverable r context irq <;> rfl
    · have hne : irq < plicMaxIrq := by omega
      cases hd : deliverable r context irq with
      | true => simpa [Nat.ne_of_lt hne] using ⟨irq, Nat.le_refl _, hne, hd⟩
      | false =>
        -- the irq itself does not stop the scan, so a witness lies behind it
        simp only [ne_eq, Nat.ne_of_lt hne, not_false_eq_true, true_and, Bool.false_eq_true,
          if_false]
        refine exists_congr fun i => and_congr_left fun h => ?_
        rw [Nat.succ_le_iff]
        refine ⟨Nat.le_of_lt, fun hle => Nat.lt_of_le_of_ne hle ?_⟩
        rintro rfl
        rw [h.2] at hd
        cases hd

theorem reads_hasDeliverable {context : Nat} (hc : context < vplicContexts) :
    Reads (vplicContextHasDeliverableLocked context) (fun r => hasDeliverable r context)
      fun r => ∃ irq, irq < plicMaxIrq ∧ deliverable r context irq = true := by
  rw [vplicContextHasDeliverableLocked, if_neg (Nat.not_le.mpr hc)]
  refine (reads_hasDeliverableFrom (n := 127) rfl (Nat.succ_pos 0)).congr (fun _ => rfl)
    fun r => ?_
  refine exists_congr fun i => ?_
  exact ⟨fun h => h.2, fun h => ⟨(deliverable_valid h.2).1, h⟩⟩

theorem reads_assertedFrom {context n : Nat} (h : context + n ≤ vplicContexts) :
    Reads (assertedFrom context n) (fun r => (List.range' context n).map (hasDeliverable r))
      fun r => ∀ c, context ≤ c → c < context + n →
        ∃ irq, irq < plicMaxIrq ∧ deliverable r c irq = true := by
  induction n generalizing context with
  | zero =>
    refine (Reads.pure []).congr (fun _ => rfl) fun r => iff_of_true trivial ?_
    intro c h1 h2
    exact absurd (Nat.lt_of_le_of_lt h1 h2) (Nat.lt_irrefl _)
  | succ n ih =>
    have hnext : context + 1 + n ≤ vplicContexts := by omega
    refine ((reads_hasDeliverable (Nat.lt_of_lt_of_le (by omega) h)).bind fun _ =>
      (ih hnext).bind fun _ => .pure _).congr (fun r => ?_) fun r => ?_
    · rw [List.range'_succ, List.map_cons]
    · rw [and_true]
      constructor
      · rintro ⟨h0, hrest⟩ c h1 h2
        rcases Nat.eq_or_lt_of_le h1 with rfl | hlt
        · exact h0
        · exact hrest c hlt (by omega)
      · intro hall
        exact ⟨hall context (Nat.le_refl _) (by omega), fun c h1 h2 => hall c (by omega) (by omega)⟩

/-- The lines of all contexts, and when computing them stays in bounds. -/
theorem reads_asserted : Reads vplicAsserted
    (fun r => (List.range vplicContexts).map (hasDeliverable r)) Covered :=
  (reads_assertedFrom (Nat.le_of_eq (Nat.zero_add _))).congr
    (fun r => by rw [List.range_eq_range']) fun r => forall_congr' fun c => by simp

/-! ## Computations that store -/

/-- `m` returns `val` and leaves the arrays as `after`, and adds only accesses in bounds iff
`safe`. -/
def Runs {α : Type} (m : PlicM α) (val : Regs → α) (after : Regs → Regs) (safe : Regs → Prop) :
    Prop :=
  ∀ s, (m s).1 = val s.regs ∧ (m s).2.regs = after s.regs ∧
    ((m s).2.Clean ↔ s.Clean ∧ safe s.regs)

section

variable {α β : Type} {m : PlicM α} {val : Regs → α} {after : Regs → Regs} {safe : Regs → Prop}

theorem Reads.runs (h : Reads m val safe) : Runs m val (fun r => r) safe := h

theorem Runs.store (ref : Ref) (v : Word) : Runs (store ref v) (fun _ => ())
    (fun r => Function.update r ref.offset v) fun _ => ref.InBounds := by
  intro s
  refine ⟨rfl, rfl, ?_⟩
  change (∀ r ∈ ref :: s.log, r.InBounds) ↔ _
  rw [List.forall_mem_cons]
  exact and_comm

theorem Runs.bind {f : α → PlicM β} {val' : α → Regs → β} {after' : α → Regs → Regs}
    {safe' : α → Regs → Prop} (hm : Runs m val after safe)
    (hf : ∀ a, Runs (f a) (val' a) (after' a) (safe' a)) :
    Runs (m >>= f) (fun r => val' (val r) (after r)) (fun r => after' (val r) (after r))
      fun r => safe r ∧ safe' (val r) (after r) := by
  intro s
  obtain ⟨hv, hr, hc⟩ := hm s
  obtain ⟨hv', hr', hc'⟩ := hf (m s).1 (m s).2
  refine ⟨?_, ?_, ?_⟩
  · change (f (m s).1 (m s).2).1 = _
    rw [hv', hr, hv]
  · change (f (m s).1 (m s).2).2.regs = _
    rw [hr', hr, hv]
  · change (f (m s).1 (m s).2).2.Clean ↔ _
    rw [hc', hc, hr, hv, and_assoc]

theorem Runs.ite {c : Prop} [Decidable c] {m' : PlicM α} {val' : Regs → α} {after' : Regs → Regs}
    {safe' : Regs → Prop} (h : c → Runs m val after safe) (h' : ¬ c → Runs m' val' after' safe') :
    Runs (if c then m else m') (fun r => if c then val r else val' r)
      (fun r => if c then after r else after' r) fun r => if c then safe r else safe' r := by
  split
  · next hc => exact h hc
  · next hc => exact h' hc

theorem Runs.congr {val' : Regs → α} {after' : Regs → Regs} {safe' : Regs → Prop}
    (h : Runs m val after safe) (hval : ∀ r, val r = val' r) (hafter : ∀ r, after r = after' r)
    (hsafe : ∀ r, safe r ↔ safe' r) : Runs m val' after' safe' := by
  intro s
  rw [← hval, ← hafter, ← hsafe]
  exact h s

end

/-- The arrays with the pending bit of `irq` written. -/
def setPending (r : Regs) (irq : Nat) (on : Bool) : Regs :=
  Function.update r (Ref.pending (irq / 32)).offset
    (if on then r (Ref.pending (irq / 32)).offset ||| 1#32 <<< (irq % 32)
    else r (Ref.pending (irq / 32)).offset &&& ~~~(1#32 <<< (irq % 32)))

theorem runs_setPending (irq : Nat) (on : Bool) : Runs (setPendingLocked irq on) (fun _ => ())
    (fun r => setPending r irq on) fun _ => irq / 32 < vplicWords :=
  ((Reads.load _).runs.bind fun _ => .store _ _).congr (fun _ => rfl) (fun _ => rfl)
    fun _ => and_self_iff

/-- The scan of a claim over `n` irqs from `irq` on. -/
def claimBest (r : Regs) (context irq : Nat) (best : Nat × Word) : Nat → Nat × Word
  | 0 => best
  | n + 1 =>
    claimBest r context (irq + 1)
      (if deliverable r context irq = true ∧ best.2 < priorityOf r irq then
        (irq, priorityOf r irq) else best) n

theorem reads_claimRound (context irq : Nat) (best : Nat × Word) :
    Reads (claimRound context irq best)
      (fun r => if deliverable r context irq = true ∧ best.2 < priorityOf r irq then
        (irq, priorityOf r irq) else best) fun _ => irq ≠ plicMaxIrq := by
  refine ((reads_deliverable context irq).bind fun _ => .ite (fun _ => .pure best) fun _ =>
    (Reads.load _).bind fun _ => .ite (fun _ => .pure _) fun _ => .pure best).congr ?_ ?_
  · intro r
    cases deliverable r context irq with
    | false => simp
    | true => simp [priorityOf]
  · intro r
    cases hd : deliverable r context irq with
    | false => simp
    | true => simp [Ref.InBounds, Nat.lt_succ_of_le (deliverable_valid hd).2]

theorem reads_claimFrom {context irq n : Nat} {best : Nat × Word} :
    Reads (claimFrom context irq best n) (fun r => claimBest r context irq best n)
      fun _ => ∀ i, irq ≤ i → i < irq + n → i ≠ plicMaxIrq := by
  induction n generalizing irq best with
  | zero =>
    refine (Reads.pure best).congr (fun _ => rfl) fun _ => iff_of_true trivial ?_
    intro i h1 h2
    exact absurd (Nat.lt_of_le_of_lt h1 h2) (Nat.lt_irrefl _)
  | succ n ih =>
    refine ((reads_claimRound context irq best).bind fun _ => ih).congr (fun _ => rfl) fun r => ?_
    constructor
    · rintro ⟨h0, hrest⟩ i h1 h2
      rcases Nat.eq_or_lt_of_le h1 with rfl | hlt
      · exact h0
      · exact hrest i hlt (by omega)
    · intro hall
      exact ⟨hall irq (Nat.le_refl _) (by omega), fun i h1 h2 => hall i (by omega) (by omega)⟩

theorem runs_claimBody {context n : Nat} (hn : plicMaxIrq < 1 + n) :
    Runs (do
      let best ← claimFrom context 1 (0, 0) n
      if best.1 ≠ 0 then do
        setPendingLocked best.1 false
        pure best.1
      else pure best.1)
      (fun r => (claimBest r context 1 (0, 0) n).1)
      (fun r => if (claimBest r context 1 (0, 0) n).1 ≠ 0 then
        setPending r (claimBest r context 1 (0, 0) n).1 false else r) fun _ => False := by
  refine (reads_claimFrom.runs.bind fun b => Runs.ite (fun _ => (runs_setPending b.1 false).bind
    fun _ => (Reads.pure b.1).runs) fun _ => (Reads.pure b.1).runs).congr (fun _ => ite_self _)
    (fun _ => rfl) fun r => ?_
  exact iff_false_intro fun h => h.1 plicMaxIrq (by decide) hn rfl

/-- The irq that a claim by `context` returns. -/
def claimed (r : Regs) (context : Nat) : Nat := (claimBest r context 1 (0, 0) plicMaxIrq).1

/-- A claim asks about every irq, the last one included. -/
theorem runs_claim {context : Nat} (hc : context < vplicContexts) :
    Runs (vplicClaimLocked context) (fun r => claimed r context)
      (fun r => if claimed r context ≠ 0 then setPending r (claimed r context) false else r)
      fun _ => False := by
  rw [vplicClaimLocked, if_neg (Nat.not_le.mpr hc)]
  exact runs_claimBody (Nat.lt_add_of_pos_left (Nat.succ_pos 0))

/-! ## Operations -/

/-- The context that a read of the register at `off` claims for. -/
def claimContext (off : Nat) : Option Nat := inRange (vplicContextFromClaimOff off)

/-- The arrays once a guest's write to the register at `off` is made. -/
def written (r : Regs) (off : Nat) (val : Word) : Regs :=
  if off < 0x1000 then
    if vplicIrqValid (off / 4) then
      Function.update r (Ref.priority (off / 4)).offset (val &&& plicMaxPriority)
    else r
  else if 0x2000 ≤ off ∧ off < 0x2000 + vplicContexts * 0x80 then
    if (off - 0x2000) / 0x80 < vplicContexts ∧ (off - 0x2000) % 0x80 / 4 < vplicWords then
      Function.update r
        (Ref.enable ((off - 0x2000) / 0x80) ((off - 0x2000) % 0x80 / 4)).offset val
    else r
  else
    match inRange (vplicContextFromThresholdOff off) with
    | some context => Function.update r (Ref.threshold context).offset val
    | none => r

/-- The arrays once the operation's own store is made. -/
def Op.stored (r : Regs) : Op → Regs
  | .raise irq => setPending r irq true
  | .clear irq => setPending r irq false
  | .read _ => r
  | .write addr value => written r (plicOffset addr) (value.setWidth 32)

/-- The operation does not name the last irq and claims nothing, and the scans at its end all
stop before the last irq. -/
def Op.Safe (r : Regs) (op : Op) : Prop :=
  match op with
  | .raise irq | .clear irq =>
    vplicIrqValid irq = true → irq ≠ plicMaxIrq ∧ Covered (op.stored r)
  | .read addr => claimContext (plicOffset addr) = none ∧ Covered (op.stored r)
  | .write _ _ => Covered (op.stored r)

theorem inRange_some {o : Option Nat} {c : Nat} (h : inRange o = some c) : c < vplicContexts := by
  rw [inRange, Option.filter_eq_some_iff] at h
  exact of_decide_eq_true h.2

theorem vplicContextFromOff_some {reg off c : Nat} (h : vplicContextFromOff reg off = some c) :
    0x200000 ≤ off ∧ (off - 0x200000) % 0x1000 = reg := by
  unfold vplicContextFromOff at h
  split at h
  · cases h
  · next hoff =>
    split at h
    · cases h
    · next hreg => exact ⟨Nat.le_of_not_lt hoff, not_not.mp hreg⟩

/-- A claim register is the register of nothing else. -/
theorem claimContext_some {off c : Nat} (h : claimContext off = some c) :
    c < vplicContexts ∧ 0x200000 ≤ off ∧ vplicContextFromThresholdOff off = none := by
  refine ⟨inRange_some h, ?_⟩
  rw [claimContext, inRange, Option.filter_eq_some_iff] at h
  obtain ⟨hoff, hreg⟩ := vplicContextFromOff_some h.1
  refine ⟨hoff, ?_⟩
  rw [vplicContextFromThresholdOff, vplicContextFromOff, if_neg (Nat.not_lt.mpr hoff), hreg]
  rfl

theorem vplicReadLocked_claim {off c : Nat} (h : claimContext off = some c) :
    vplicReadLocked off = (do let irq ← vplicClaimLocked c; pure (BitVec.ofNat 32 irq)) := by
  obtain ⟨-, hoff, hthr⟩ := claimContext_some h
  have h1 : ¬ off < 0x1000 := by omega
  have h2 : ¬ off < 0x2000 := by omega
  have h3 : ¬ off < 0x2000 + vplicContexts * 0x80 := by
    simp only [vplicContexts]
    omega
  have hnone : inRange none = none := rfl
  rw [claimContext] at h
  simp only [vplicReadLocked, h1, h2, h3, if_false, hthr, hnone, h]

/-- A register is read when the index the guest asks for is one of the array. -/
theorem Reads.loadIf {c : Prop} [Decidable c] {ref : Ref} (h : c → ref.InBounds) :
    Reads (if c then Vplic.load ref else Pure.pure 0) (fun r => if c then r ref.offset else 0)
      fun _ => True := by
  refine (Reads.ite (fun _ => .load _) fun _ => .pure 0).congr (fun _ => rfl) fun r => ?_
  split
  · next hc => exact iff_of_true (h hc) trivial
  · exact Iff.rfl

theorem Runs.storeIf {c : Prop} [Decidable c] {ref : Ref} (h : c → ref.InBounds) (v : Word) :
    Runs (if c then Vplic.store ref v else Pure.pure ()) (fun _ => ())
      (fun r => if c then Function.update r ref.offset v else r) fun _ => True := by
  refine (Runs.ite (fun _ => .store _ v) fun _ => (Reads.pure ()).runs).congr (fun _ => ite_self _)
    (fun _ => rfl) fun r => ?_
  split
  · next hc => exact iff_of_true (h hc) trivial
  · exact Iff.rfl

theorem priority_inBounds {irq : Nat} (h : vplicIrqValid irq = true) : (Ref.priority irq).InBounds :=
  Nat.lt_succ_of_le (vplicIrqValid_iff.mp h).2

theorem reads_read {off : Nat} (h : claimContext off = none) :
    ∃ val, Reads (vplicReadLocked off) val fun _ => True := by
  unfold vplicReadLocked
  split
  · exact ⟨_, .loadIf priority_inBounds⟩
  split
  · exact ⟨_, .loadIf fun hw => hw⟩
  split
  · exact ⟨_, .loadIf fun hw => hw⟩
  cases hthr : inRange (vplicContextFromThresholdOff off) with
  | none =>
    rw [claimContext] at h
    simp only [h]
    exact ⟨_, .pure 0⟩
  | some c =>
    exact ⟨_, (Reads.load _).congr (fun _ => rfl) fun _ => iff_of_true (inRange_some hthr) trivial⟩

theorem runs_write (off : Nat) (val : Word) : Runs (vplicWriteLocked off val) (fun _ => ())
    (fun r => written r off val) fun _ => True := by
  unfold vplicWriteLocked written
  split
  · exact .storeIf priority_inBounds _
  split
  · exact .storeIf (by exact fun hw => hw) _
  cases hthr : inRange (vplicContextFromThresholdOff off) with
  | none => exact (Reads.pure ()).runs
  | some c =>
    exact (Runs.store _ _).congr (fun _ => rfl) (fun _ => rfl) fun _ =>
      iff_of_true (inRange_some hthr) trivial

/-- The lines of all contexts. -/
def lines (r : Regs) : List Bool := (List.range vplicContexts).map (hasDeliverable r)

/-- The operation returns before it computes the lines. -/
def Op.Ignored : Op → Bool
  | .raise irq | .clear irq => !vplicIrqValid irq
  | .read _ | .write _ _ => false

/-- The arrays after the operation. -/
def Op.after (r : Regs) : Op → Regs
  | .raise irq => if vplicIrqValid irq then setPending r irq true else r
  | .clear irq => if vplicIrqValid irq then setPending r irq false else r
  | .read addr =>
    match claimContext (plicOffset addr) with
    | some c => if claimed r c ≠ 0 then setPending r (claimed r c) false else r
    | none => r
  | .write addr value => written r (plicOffset addr) (value.setWidth 32)

/-- What stores first and then computes the lines. -/
theorem Runs.thenLines {α : Type} {m : PlicM α} {val : Regs → α} {after : Regs → Regs}
    {safe : Regs → Prop} (h : Runs m val after safe) (f : α → Word) :
    Runs (do let a ← m; let asserted ← vplicAsserted; Pure.pure (f a, some asserted))
      (fun r => (f (val r), some (lines (after r)))) after fun r => safe r ∧ Covered (after r) :=
  (h.bind fun a => reads_asserted.runs.bind fun l => (Reads.pure (f a, some l)).runs).congr
    (fun _ => rfl) (fun _ => rfl) fun _ => and_congr_right fun _ => and_iff_left trivial

theorem runs_setPending_valid {irq : Nat} (hv : vplicIrqValid irq = true) (on : Bool) :
    Runs (setPendingLocked irq on) (fun _ => ()) (fun r => setPending r irq on)
      fun _ => irq ≠ plicMaxIrq := by
  refine (runs_setPending irq on).congr (fun _ => rfl) (fun _ => rfl) fun _ => ?_
  obtain ⟨hpos, hle⟩ := vplicIrqValid_iff.mp hv
  simp only [vplicWords, plicMaxIrq] at *
  omega

/-- What an operation computes: its effect on the arrays, the lines of the arrays it leaves, the
irq of a claim, and when its accesses are in bounds. -/
theorem Op.runs (op : Op) : ∃ v : Regs → Word, Runs op.run
      (fun r => (v r, if op.Ignored then none else some (lines (op.after r))))
      (fun r => op.after r) (fun r => op.Safe r) ∧
    ∀ addr c, op = .read addr → claimContext (plicOffset addr) = some c →
      ∀ r, v r = BitVec.ofNat 32 (claimed r c) := by
  cases op with
  | raise irq =>
    refine ⟨fun _ => 0, ?_, by simp⟩
    cases hv : vplicIrqValid irq with
    | false => simpa [Op.run, Op.Ignored, Op.after, Op.Safe, hv] using (Reads.pure ((0 : Word), none)).runs
    | true =>
      simpa [Op.run, Op.Ignored, Op.after, Op.stored, Op.Safe, hv] using
        (runs_setPending_valid hv true).thenLines fun _ => 0
  | clear irq =>
    refine ⟨fun _ => 0, ?_, by simp⟩
    cases hv : vplicIrqValid irq with
    | false => simpa [Op.run, Op.Ignored, Op.after, Op.Safe, hv] using (Reads.pure ((0 : Word), none)).runs
    | true =>
      simpa [Op.run, Op.Ignored, Op.after, Op.stored, Op.Safe, hv] using
        (runs_setPending_valid hv false).thenLines fun _ => 0
  | read addr =>
    cases hc : claimContext (plicOffset addr) with
    | none =>
      obtain ⟨val, hval⟩ := reads_read hc
      refine ⟨val, ?_, ?_⟩
      swap
      · rintro _ c ⟨⟩ hc'
        cases hc.symm.trans hc'
      simpa [Op.run, Op.Ignored, Op.after, Op.stored, Op.Safe, hc] using hval.runs.thenLines id
    | some c =>
      refine ⟨fun r => BitVec.ofNat 32 (claimed r c), ?_, ?_⟩
      swap
      · rintro _ c' ⟨⟩ hc' r
        rw [Option.some.inj (hc.symm.trans hc')]
      have h := ((runs_claim (claimContext_some hc).1).bind fun irq =>
        (Reads.pure (BitVec.ofNat 32 irq)).runs).thenLines id
      rw [← vplicReadLocked_claim hc] at h
      simpa [Op.run, Op.Ignored, Op.after, Op.Safe, hc] using h
  | write addr value =>
    refine ⟨fun _ => 0, ?_, by simp⟩
    simpa [Op.run, Op.Ignored, Op.after, Op.stored, Op.Safe] using
      (runs_write (plicOffset addr) (value.setWidth 32)).thenLines fun _ => 0

/-! ## What a claim returns -/

/-- What every round of the scan keeps holds after the scan. -/
theorem claimBest_keeps {r : Regs} {context irq n : Nat} {b : Nat × Word} {I : Nat → Nat × Word → Prop}
    (hround : ∀ irq b, I irq b → I (irq + 1) (if deliverable r context irq = true ∧
      b.2 < priorityOf r irq then (irq, priorityOf r irq) else b)) (h : I irq b) :
    I (irq + n) (claimBest r context irq b n) := by
  induction n generalizing irq b with
  | zero => exact h
  | succ n ih =>
    rw [claimBest, show irq + (n + 1) = irq + 1 + n by omega]
    exact ih (hround irq b h)

/-- `b` is the best of the irqs below `upto`, as the scan keeps it. -/
structure BestBelow (r : Regs) (context upto : Nat) (b : Nat × Word) : Prop where
  above : ∀ i, i < upto → deliverable r context i = true → priorityOf r i ≤ b.2
  hit : b = (0, 0) ∨ b.1 < upto ∧ deliverable r context b.1 = true ∧ b.2 = priorityOf r b.1

theorem BestBelow.scan {r : Regs} {context irq n : Nat} {b : Nat × Word}
    (h : BestBelow r context irq b) :
    BestBelow r context (irq + n) (claimBest r context irq b n) := by
  refine claimBest_keeps (fun irq b h => ?_) h
  split
  · next hbest =>
    obtain ⟨hd, hlt⟩ := hbest
    refine ⟨fun i hi hdi => ?_, .inr ⟨Nat.lt_succ_self _, hd, rfl⟩⟩
    rcases Nat.lt_succ_iff_lt_or_eq.mp hi with hi | rfl
    · exact Nat.le_of_lt (Nat.lt_of_le_of_lt (h.above i hi hdi) hlt)
    · exact BitVec.le_refl _
  · next hworse =>
    refine ⟨fun i hi hdi => ?_, h.hit.imp_right fun hh => ⟨Nat.lt_succ_of_lt hh.1, hh.2⟩⟩
    rcases Nat.lt_succ_iff_lt_or_eq.mp hi with hi | rfl
    · exact h.above i hi hdi
    · exact BitVec.not_lt.mp fun hlt => hworse ⟨hdi, hlt⟩

theorem claimBest_snoc (r : Regs) (context irq : Nat) (b : Nat × Word) (n : Nat) :
    claimBest r context irq b (n + 1) =
      if deliverable r context (irq + n) = true ∧
          (claimBest r context irq b n).2 < priorityOf r (irq + n) then
        (irq + n, priorityOf r (irq + n)) else claimBest r context irq b n := by
  induction n generalizing irq b with
  | zero => rfl
  | succ n ih =>
    rw [claimBest, ih, claimBest, show irq + 1 + n = irq + (n + 1) by omega]

theorem bestBelow_start (r : Regs) (context : Nat) : BestBelow r context 1 (0, 0) := by
  refine ⟨fun i hi hd => ?_, .inl rfl⟩
  exact absurd (deliverable_valid hd).1 (Nat.not_lt.mpr (Nat.le_of_lt_succ hi))

/-- The last irq is deliverable, and every other deliverable irq has a lower priority. -/
def LastWins (r : Regs) (context : Nat) : Prop :=
  deliverable r context plicMaxIrq = true ∧ ∀ irq, irq < plicMaxIrq →
    deliverable r context irq = true → priorityOf r irq < priorityOf r plicMaxIrq

theorem claimed_cases (r : Regs) (context : Nat) : claimed r context = 0 ∨
    claimed r context < plicMaxIrq ∧ deliverable r context (claimed r context) = true ∨
    claimed r context = plicMaxIrq := by
  have hbest := (bestBelow_start r context).scan (n := plicMaxIrq)
  rcases hbest.hit with h0 | ⟨hlt, hd, -⟩
  · exact .inl (congrArg Prod.fst h0)
  · rcases Nat.lt_or_eq_of_le (deliverable_valid hd).2 with hlt | he
    · exact .inr (.inl ⟨hlt, hd⟩)
    · exact .inr (.inr he)

/-- The last irq is claimed only when nothing else of its priority is deliverable. -/
theorem claimed_last_iff (r : Regs) (context : Nat) :
    claimed r context = plicMaxIrq ↔ LastWins r context := by
  have hbest := (bestBelow_start r context).scan (n := 127)
  have hclaimed : claimed r context = _ := congrArg Prod.fst (claimBest_snoc r context 1 (0, 0) 127)
  rw [hclaimed]
  generalize claimBest r context 1 (0, 0) 127 = b at hbest
  constructor
  · intro h
    split at h
    · next hwin =>
      refine ⟨hwin.1, fun i hi hd => ?_⟩
      exact Nat.lt_of_le_of_lt (hbest.above i hi hd) hwin.2
    · rcases hbest.hit with rfl | ⟨hlt, -, -⟩
      · cases h
      · exact absurd h (Nat.ne_of_lt hlt)
  · rintro ⟨hd, hall⟩
    have hlt : b.2 < priorityOf r plicMaxIrq := by
      rcases hbest.hit with rfl | ⟨hlt, hdb, hp⟩
      · exact Nat.lt_of_le_of_lt (Nat.zero_le _) (deliverable_above hd)
      · rw [hp]
        exact hall b.1 hlt hdb
    rw [if_pos ⟨hd, hlt⟩]
    rfl

/-! ## Raised, claimed and cleared irqs -/

/-- The irqs that were raised, and neither claimed nor cleared since. `value` is what the
operation returned. -/
def Op.outstanding (live : Nat → Bool) (value : Word) : Op → Nat → Bool
  | .raise irq => if vplicIrqValid irq then Function.update live irq true else live
  | .clear irq => if vplicIrqValid irq then Function.update live irq false else live
  | .read addr =>
    if (claimContext (plicOffset addr)).isSome then Function.update live value.toNat false else live
  | .write _ _ => live

/-- The arrays after a sequence of operations, and the irqs outstanding then. -/
inductive PlicRun : Regs → (Nat → Bool) → Prop
  | init : PlicRun initRegs fun _ => false
  | step {r : Regs} {live : Nat → Bool} (op : Op) : PlicRun r live →
      PlicRun (op.run ⟨r, []⟩).2.regs (op.outstanding live (op.run ⟨r, []⟩).1.1)

theorem Op.run_regs (op : Op) (s : Plic) : (op.run s).2.regs = op.after s.regs := by
  obtain ⟨v, h, -⟩ := op.runs
  exact (h s).2.1

theorem PlicRun.next {r : Regs} {live : Nat → Bool} (h : PlicRun r live) (op : Op) :
    PlicRun (op.after r) (op.outstanding live (op.run ⟨r, []⟩).1.1) := by
  rw [← op.run_regs ⟨r, []⟩]
  exact h.step op

theorem claim_value {addr : BitVec 64} {c : Nat} (hc : claimContext (plicOffset addr) = some c)
    (s : Plic) : ((Op.read addr).run s).1.1.toNat = claimed s.regs c := by
  obtain ⟨v, h, hclaim⟩ := (Op.read addr).runs
  have hval : ((Op.read addr).run s).1.1 = BitVec.ofNat 32 (claimed s.regs c) := by
    rw [(h s).1]
    exact hclaim addr c rfl hc _
  have hle : claimed s.regs c ≤ plicMaxIrq := by
    rcases claimed_cases s.regs c with h0 | ⟨hlt, -⟩ | he
    · rw [h0]
      exact Nat.zero_le _
    · exact Nat.le_of_lt hlt
    · exact Nat.le_of_eq he
  rw [hval, BitVec.toNat_ofNat, Nat.mod_eq_of_lt]
  exact Nat.lt_of_le_of_lt hle (by decide)

theorem getLsbD_bit {i k : Nat} (hi : i < 32) : (1#32 <<< k).getLsbD i = decide (k = i) := by
  rw [show 1#32 <<< k = BitVec.twoPow 32 k from rfl, BitVec.getLsbD_twoPow, ← Bool.decide_and]
  exact decide_eq_decide.mpr ⟨fun h => h.2, fun h => ⟨h ▸ hi, h⟩⟩

theorem pendingBit_setPending (r : Regs) (irq irq' : Nat) (on : Bool) :
    pendingBit (setPending r irq' on) irq = if irq = irq' then on else pendingBit r irq := by
  have hlt : irq % 32 < 32 := Nat.mod_lt _ (by decide)
  unfold pendingBit setPending
  by_cases hw : irq / 32 = irq' / 32
  · rw [hw, Function.update_self]
    have hbit : decide (irq' % 32 = irq % 32) = decide (irq = irq') :=
      decide_eq_decide.mpr (by omega)
    cases on with
    | false =>
      rw [if_neg Bool.false_ne_true, BitVec.getLsbD_and, BitVec.getLsbD_not, getLsbD_bit hlt, hbit]
      by_cases h : irq = irq' <;> simp [h, hlt]
    | true =>
      rw [if_pos rfl, BitVec.getLsbD_or, getLsbD_bit hlt, hbit]
      by_cases h : irq = irq' <;> simp [h]
  · have hne : (Ref.pending (irq / 32)).offset ≠ (Ref.pending (irq' / 32)).offset := by
      simp only [Ref.offset]
      omega
    rw [Function.update_of_ne hne, if_neg]
    rintro rfl
    exact hw rfl

/-- A register that a guest writes is not a word of `pending`. -/
theorem pendingBit_written {irq : Nat} (h : irq < plicMaxIrq) (r : Regs) (off : Nat) (val : Word) :
    pendingBit (written r off val) irq = pendingBit r irq := by
  have hother {ref : Ref} (v : Word) (hne : (Ref.pending (irq / 32)).offset ≠ ref.offset) :
      pendingBit (Function.update r ref.offset v) irq = pendingBit r irq := by
    rw [pendingBit, Function.update_of_ne hne, pendingBit]
  unfold written
  split
  · split
    · next hv =>
      apply hother
      have hle := (vplicIrqValid_iff.mp hv).2
      simp only [Ref.offset]
      omega
    · rfl
  split
  · split
    · apply hother
      simp only [Ref.offset, vplicWords, plicMaxIrq] at *
      omega
    · rfl
  split
  · apply hother
    simp only [Ref.offset, vplicWords, plicMaxIrq] at *
    omega
  · rfl

/-- Irq 0 is never outstanding: there is no such irq. -/
theorem PlicRun.zero {r : Regs} {live : Nat → Bool} (h : PlicRun r live) : live 0 = false := by
  induction h with
  | init => rfl
  | step op _ ih =>
    cases op with
    | raise n | clear n =>
      simp only [Op.outstanding]
      split
      · next hv =>
        have hne : 0 ≠ n := Nat.ne_of_lt (vplicIrqValid_iff.mp hv).1
        rwa [Function.update_of_ne hne]
      · exact ih
    | read addr =>
      simp only [Op.outstanding]
      split
      · rw [Function.update_apply, ih, ite_self]
      · exact ih
    | write _ _ => exact ih

/-- The pending bits of the irqs that have a word of their own are the outstanding irqs. -/
theorem PlicRun.pending {r : Regs} {live : Nat → Bool} (h : PlicRun r live) {irq : Nat}
    (hirq : irq < plicMaxIrq) : pendingBit r irq = live irq := by
  induction h with
  | init =>
    have hne : ¬ (Ref.pending (irq / 32)).offset ≤ plicMaxIrq := by
      simp only [Ref.offset]
      omega
    rw [pendingBit, initRegs, if_neg fun h => hne h.2]
    exact BitVec.getLsbD_zero
  | @step r live op hrun ih =>
    rw [op.run_regs]
    cases op with
    | raise n =>
      simp only [Op.after, Op.outstanding]
      split
      · rw [pendingBit_setPending, Function.update_apply, ih]
      · exact ih
    | clear n =>
      simp only [Op.after, Op.outstanding]
      split
      · rw [pendingBit_setPending, Function.update_apply, ih]
      · exact ih
    | read addr =>
      cases hc : claimContext (plicOffset addr) with
      | none => simpa [Op.after, Op.outstanding, hc] using ih
      | some c =>
        simp only [Op.after, Op.outstanding, hc, Option.isSome_some, if_true, claim_value hc]
        by_cases h0 : claimed r c = 0
        · rw [if_neg (not_not.mpr h0), h0, Function.update_apply, ih]
          split
          · next hz => rw [hz, hrun.zero]
          · rfl
        · rw [if_pos h0, pendingBit_setPending, Function.update_apply, ih]
    | write addr value =>
      simp only [Op.after, Op.outstanding]
      rw [pendingBit_written hirq, ih]

/-! ## Index safety -/

/-- An operation stays inside the arrays iff it is `Safe`. In a run, a claim by a context returns
an outstanding irq, or none, unless the last irq wins without being outstanding. -/
theorem vplic_index_safety (op : Op) (r : Regs) :
    ((∀ ref ∈ (op.run ⟨r, []⟩).2.log, ref.InBounds) ↔ op.Safe r) ∧
    ∀ (live : Nat → Bool) (addr : BitVec 64) (c : Nat), PlicRun r live →
      claimContext (plicOffset addr) = some c →
      ∀ irq, ((Op.read addr).run ⟨r, []⟩).1.1.toNat = irq →
        ((irq = 0 ∨ live irq = true) ↔ ¬ (LastWins r c ∧ live plicMaxIrq = false)) := by
  constructor
  · obtain ⟨v, h, -⟩ := op.runs
    have hclean : (⟨r, []⟩ : Plic).Clean := fun _ hmem => absurd hmem List.not_mem_nil
    exact ((h ⟨r, []⟩).2.2).trans (and_iff_right hclean)
  · rintro live addr c hrun hc _ rfl
    rw [claim_value hc, ← claimed_last_iff]
    rcases claimed_cases r c with h0 | ⟨hlt, hd⟩ | hlast
    · have hne : claimed r c ≠ plicMaxIrq := by
        rw [h0]
        decide
      exact iff_of_true (.inl h0) fun h => hne h.1
    · have hlive := hrun.pending hlt
      rw [deliverable_pending hd] at hlive
      exact iff_of_true (.inr hlive.symm) fun h => Nat.ne_of_lt hlt h.1
    · rw [hlast]
      simp [plicMaxIrq]

/-- The UART's interrupt, enabled for context 0 and raised, is claimed while it is outstanding. -/
theorem vplic_index_safety_uart : ∃ r live, PlicRun r live ∧
    ((Op.read 0x0c200004).run ⟨r, []⟩).1.1.toNat = 10 ∧ (10 = 0 ∨ live 10 = true) := by
  obtain ⟨r, live, hrun, hclaimed, hlast⟩ : ∃ r live, PlicRun r live ∧ claimed r 0 = 10 ∧
      deliverable r 0 plicMaxIrq = false :=
    ⟨_, _, (PlicRun.init.next (.write 0x0c002000 0x400)).next (.raise 10), by decide +kernel,
      by decide +kernel⟩
  have hctx : claimContext (plicOffset 0x0c200004) = some 0 := by decide
  have hval := (claim_value hctx ⟨r, []⟩).trans hclaimed
  refine ⟨r, live, hrun, hval, ((vplic_index_safety (.read 0x0c200004) r).2 live _ 0 hrun hctx 10 hval).mpr ?_⟩
  rintro ⟨⟨hd, -⟩, -⟩
  rw [hlast] at hd
  cases hd

/-- Irq 128 is accepted and its pending bit is past `pending`; and a guest that sets bit 0 of the
first words of `enable[0]` and `enable[1]` claims it, though nothing was raised. -/
theorem last_irq_aliases :
    (vplicIrqValid 128 = true ∧ ¬ ∀ ref ∈ ((Op.raise 128).run ⟨initRegs, []⟩).2.log, ref.InBounds) ∧
    ∃ r live, PlicRun r live ∧ claimContext (plicOffset 0x0c200004) = some 0 ∧
      ((Op.read 0x0c200004).run ⟨r, []⟩).1.1.toNat = 128 ∧ ∀ irq, live irq = false := by
  have hctx : claimContext (plicOffset 0x0c200004) = some 0 := by decide
  refine ⟨⟨by decide, fun hall => ?_⟩, _, _,
    (PlicRun.init.next (.write 0x0c002000 1)).next (.write 0x0c002080 1), hctx, ?_, fun _ => rfl⟩
  · have hmem : Ref.pending 4 ∈ ((Op.raise 128).run ⟨initRegs, []⟩).2.log := by decide +kernel
    exact absurd (hall _ hmem) (by decide)
  · rw [claim_value hctx]
    decide +kernel

end HyperCore.Vplic
