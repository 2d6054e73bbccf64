import HyperCore.Vplic.Index

/-!
# What a claim selects

The scan of `vplic_claim_locked` keeps an irq only when its priority is strictly higher than the
best so far, so it ends at the first irq of the highest priority (`claimed_winner`). A claim clears
the pending bit of that irq and nothing else, and the next claim selects from what is left: a
context that goes on claiming gets its deliverable irqs from the highest priority down, each once
(`claims_drain`).
-/

namespace HyperCore.Vplic

/-- Pending, enabled for the context and above its threshold. -/
def Ready (r : Regs) (context irq : Nat) : Prop :=
  pendingBit r irq = true ∧ enabledBit r context irq = true ∧
    thresholdOf r context < priorityOf r irq

/-- The order in which irqs are claimed. -/
def Before (r : Regs) (i j : Nat) : Prop :=
  priorityOf r j < priorityOf r i ∨ priorityOf r j = priorityOf r i ∧ i < j

/-- `irq` is deliverable and comes before everything else that is. -/
def Winner (r : Regs) (context irq : Nat) : Prop :=
  deliverable r context irq = true ∧
    ∀ j, deliverable r context j = true → j ≠ irq → Before r irq j

/-- `r'` is `r` but for the pending bit of `irq`, which is clear. -/
structure Cleared (r r' : Regs) (irq : Nat) : Prop where
  bit : pendingBit r' irq = false
  pending : ∀ j < plicMaxIrq, j ≠ irq → pendingBit r' j = pendingBit r j
  other : ∀ ref : Ref, ref.InBounds → (∀ word, ref ≠ .pending word) →
    r' ref.offset = r ref.offset

/-- The irqs that `n` reads of the claim register return, and nothing else is done in between. -/
def claims (addr : BitVec 64) : Nat → Regs → List Nat
  | 0, _ => []
  | n + 1, r =>
    let out := (Op.read addr).run ⟨r, []⟩
    out.1.1.toNat :: claims addr n out.2.regs

section

variable {r r' : Regs} {context c irq i j n : Nat} {addr : BitVec 64}

theorem deliverable_iff (hc : context < vplicContexts) :
    deliverable r context irq = true ↔ 0 < irq ∧ irq ≤ plicMaxIrq ∧ Ready r context irq := by
  unfold deliverable Ready
  simp only [Bool.and_eq_true, decide_eq_true_eq, vplicIrqValid_iff, hc, true_and]
  constructor
  · rintro ⟨⟨⟨⟨hpos, hle⟩, hp⟩, he⟩, ht⟩
    exact ⟨hpos, hle, hp, he, ht⟩
  · rintro ⟨hpos, hle, hp, he, ht⟩
    exact ⟨⟨⟨⟨hpos, hle⟩, hp⟩, he⟩, ht⟩

/-- With the last irq out of the way, the irqs with a word of their own are left. -/
theorem deliverable_iff_ready (hc : context < vplicContexts)
    (hlast : deliverable r context plicMaxIrq = false) :
    deliverable r context irq = true ↔ 0 < irq ∧ irq < plicMaxIrq ∧ Ready r context irq := by
  constructor
  · intro hd
    obtain ⟨hpos, hle, hready⟩ := (deliverable_iff hc).mp hd
    refine ⟨hpos, Nat.lt_of_le_of_ne hle ?_, hready⟩
    rintro rfl
    exact Bool.false_ne_true (hlast.symm.trans hd)
  · rintro ⟨hpos, hlt, hready⟩
    exact (deliverable_iff hc).mpr ⟨hpos, Nat.le_of_lt hlt, hready⟩

/-! ## The scan -/

/-- The best of the irqs below `upto`: none, or the one that comes before the others. -/
def FirstBelow (r : Regs) (context upto : Nat) (b : Nat × Word) : Prop :=
  (b = (0, 0) ∧ ∀ j < upto, deliverable r context j = false) ∨
    (b.1 < upto ∧ deliverable r context b.1 = true ∧ b.2 = priorityOf r b.1 ∧
      ∀ j < upto, deliverable r context j = true → j ≠ b.1 → Before r b.1 j)

theorem FirstBelow.round {b : Nat × Word} (h : FirstBelow r context irq b) :
    FirstBelow r context (irq + 1) (if deliverable r context irq = true ∧ b.2 < priorityOf r irq
      then (irq, priorityOf r irq) else b) := by
  split
  · next hwin =>
    refine .inr ⟨Nat.lt_succ_self irq, hwin.1, rfl, fun j hj hd hne => .inl ?_⟩
    have hj' : j < irq := Nat.lt_of_le_of_ne (Nat.le_of_lt_succ hj) hne
    rcases h with ⟨-, hnone⟩ | ⟨-, -, hprio, hbest⟩
    · exact absurd hd (Bool.eq_false_iff.mp (hnone j hj'))
    · have hle : priorityOf r j ≤ b.2 := by
        rw [hprio]
        by_cases hjb : j = b.1
        · rw [hjb]
          exact BitVec.le_refl _
        · rcases hbest j hj' hd hjb with hlt | ⟨heq, -⟩
          · exact Nat.le_of_lt hlt
          · rw [heq]
            exact BitVec.le_refl _
      exact Nat.lt_of_le_of_lt hle hwin.2
  · next hworse =>
    rcases h with ⟨rfl, hnone⟩ | ⟨hlt, hd, hprio, hbest⟩
    · -- priority 0 is never above a threshold, so an irq that stays behind is not deliverable
      refine .inl ⟨rfl, fun j hj => ?_⟩
      rcases Nat.lt_succ_iff_lt_or_eq.mp hj with hj | rfl
      · exact hnone j hj
      · refine Bool.eq_false_iff.mpr fun hd => hworse ⟨hd, ?_⟩
        exact Nat.lt_of_le_of_lt (Nat.zero_le _) (deliverable_above hd)
    · refine .inr ⟨Nat.lt_succ_of_lt hlt, hd, hprio, fun j hj hdj hne => ?_⟩
      rcases Nat.lt_succ_iff_lt_or_eq.mp hj with hj | rfl
      · exact hbest j hj hdj hne
      · have hle : priorityOf r j ≤ priorityOf r b.1 := by
          rw [← hprio]
          exact BitVec.not_lt.mp fun h => hworse ⟨hdj, h⟩
        rcases Nat.lt_or_eq_of_le hle with hless | heq
        · exact .inl hless
        · exact .inr ⟨BitVec.eq_of_toNat_eq heq, hlt⟩

theorem FirstBelow.scan {b : Nat × Word} (h : FirstBelow r context irq b) :
    FirstBelow r context (irq + n) (claimBest r context irq b n) :=
  claimBest_keeps (fun _ _ h => h.round) h

/-- A claim takes the winner, or 0 when nothing is deliverable. -/
theorem claimed_winner (r : Regs) (context : Nat) :
    (claimed r context = 0 ∧ ∀ j, deliverable r context j = false) ∨
      Winner r context (claimed r context) := by
  have hstart : FirstBelow r context 1 (0, 0) := by
    refine .inl ⟨rfl, fun j hj => Bool.eq_false_iff.mpr fun hd => ?_⟩
    exact absurd (deliverable_valid hd).1 (Nat.not_lt.mpr (Nat.le_of_lt_succ hj))
  have hupto : ∀ j, deliverable r context j = true → j < 1 + plicMaxIrq := by
    intro j hd
    have := (deliverable_valid hd).2
    omega
  rcases hstart.scan (n := plicMaxIrq) with ⟨hb, hnone⟩ | ⟨-, hd, -, hbest⟩
  · refine .inl ⟨congrArg Prod.fst hb, fun j => Bool.eq_false_iff.mpr fun hd => ?_⟩
    exact Bool.false_ne_true ((hnone j (hupto j hd)).symm.trans hd)
  · exact .inr ⟨hd, fun j hdj hne => hbest j (hupto j hdj) hdj hne⟩

/-! ## The state after a claim -/

theorem setPending_other {ref : Ref} (hi : i < plicMaxIrq) (hb : ref.InBounds)
    (href : ∀ word, ref ≠ .pending word) (on : Bool) :
    setPending r i on ref.offset = r ref.offset := by
  have hne : ref.offset ≠ (Ref.pending (i / 32)).offset := by
    cases ref with
    | priority irq | threshold context =>
      simp only [Ref.offset, Ref.InBounds, vplicWords, plicMaxIrq, vplicContexts] at *
      omega
    | pending word => exact absurd rfl (href word)
    | enable context word =>
      simp only [Ref.offset, Ref.InBounds, vplicWords, plicMaxIrq, vplicContexts] at *
      omega
  rw [setPending, Function.update_of_ne hne]

theorem cleared_setPending (hi : i < plicMaxIrq) : Cleared r (setPending r i false) i where
  bit := by rw [pendingBit_setPending, if_pos rfl]
  pending j _ hne := by rw [pendingBit_setPending, if_neg hne]
  other ref hb href := setPending_other hi hb href false

theorem priorityOf_setPending (hi : i < plicMaxIrq) (on : Bool) (hj : j ≤ plicMaxIrq) :
    priorityOf (setPending r i on) j = priorityOf r j := by
  have hb : (Ref.priority j).InBounds := Nat.lt_succ_of_le hj
  exact setPending_other hi hb (fun _ h => by cases h) on

/-- A claimed irq is not deliverable any more, and the others are as they were. -/
theorem deliverable_setPending (hi : i < plicMaxIrq) (hc : context < vplicContexts) :
    deliverable (setPending r i false) context j = true ↔ deliverable r context j = true ∧ j ≠ i := by
  have hb : (Ref.threshold context).InBounds := hc
  have hthr : thresholdOf (setPending r i false) context = thresholdOf r context :=
    setPending_other hi hb (fun _ h => by cases h) false
  have hword : ∀ j ≤ plicMaxIrq, (Ref.enable context (j / 32)).offset ≠
      (Ref.pending (i / 32)).offset := by
    intro j hj
    simp only [Ref.offset, vplicWords, plicMaxIrq] at *
    omega
  have hready : j ≤ plicMaxIrq →
      (Ready (setPending r i false) context j ↔ Ready r context j ∧ j ≠ i) := by
    intro hj
    have hen : enabledBit (setPending r i false) context j = enabledBit r context j := by
      rw [enabledBit, setPending, Function.update_of_ne (hword j hj), enabledBit]
    unfold Ready
    rw [hthr, priorityOf_setPending hi false hj, hen, pendingBit_setPending]
    by_cases hji : j = i
    · simp [hji]
    · simp [hji]
  rw [deliverable_iff hc, deliverable_iff hc]
  constructor
  · rintro ⟨hpos, hle, h⟩
    obtain ⟨hr, hne⟩ := (hready hle).mp h
    exact ⟨⟨hpos, hle, hr⟩, hne⟩
  · rintro ⟨⟨hpos, hle, hr⟩, hne⟩
    exact ⟨hpos, hle, (hready hle).mpr ⟨hr, hne⟩⟩

/-- The state after a claim that has not taken the last irq. -/
theorem claim_after (haddr : claimContext (plicOffset addr) = some c) :
    ((Op.read addr).run ⟨r, []⟩).2.regs =
      if claimed r c ≠ 0 then setPending r (claimed r c) false else r := by
  rw [Op.run_regs]
  simp only [Op.after, haddr]

theorem claimed_lt (hc : c < vplicContexts) (hlast : deliverable r c plicMaxIrq = false)
    (h : Winner r c (claimed r c)) : 0 < claimed r c ∧ claimed r c < plicMaxIrq := by
  obtain ⟨hpos, hlt, -⟩ := (deliverable_iff_ready hc hlast).mp h.1
  exact ⟨hpos, hlt⟩

/-! ## Draining -/

theorem claims_idle (haddr : claimContext (plicOffset addr) = some c)
    (hnone : ∀ j, deliverable r c j = false) : claims addr n r = List.replicate n 0 := by
  have h0 : claimed r c = 0 := by
    rcases claimed_winner r c with ⟨h0, -⟩ | hwin
    · exact h0
    · exact absurd hwin.1 (Bool.eq_false_iff.mp (hnone _))
  induction n with
  | zero => rfl
  | succ n ih =>
    have hregs : ((Op.read addr).run ⟨r, []⟩).2.regs = r := by
      rw [claim_after haddr, h0, if_neg (not_not.mpr rfl)]
    rw [claims, claim_value haddr, h0, hregs, ih, List.replicate_succ]

/-- The irqs that are deliverable to a context. -/
def deliverables (r : Regs) (context : Nat) : Finset Nat :=
  (Finset.range (plicMaxIrq + 1)).filter fun irq => deliverable r context irq = true

theorem mem_deliverables : i ∈ deliverables r context ↔ deliverable r context i = true := by
  unfold deliverables
  rw [Finset.mem_filter, Finset.mem_range]
  exact and_iff_right_of_imp fun hd => Nat.lt_succ_of_le (deliverable_valid hd).2

theorem before_setPending (hi : i < plicMaxIrq) {j k : Nat} (hj : j ≤ plicMaxIrq)
    (hk : k ≤ plicMaxIrq) (h : Before (setPending r i false) j k) : Before r j k := by
  unfold Before at h
  rwa [priorityOf_setPending hi false hj, priorityOf_setPending hi false hk] at h

/-- Claims take the deliverable irqs in order, and return 0 from then on. By induction on the
number of deliverable irqs, which a claim makes smaller by the winner. -/
theorem claims_drain (hc : c < vplicContexts) (haddr : claimContext (plicOffset addr) = some c)
    (hlast : deliverable r c plicMaxIrq = false) :
    ∃ l : List Nat, l.Pairwise (Before r) ∧ (∀ i, i ∈ l ↔ deliverable r c i = true) ∧
      ∀ n, claims addr (l.length + n) r = l ++ List.replicate n 0 := by
  induction hcard : (deliverables r c).card generalizing r with
  | zero =>
    have hnone : ∀ j, deliverable r c j = false := fun j => Bool.eq_false_iff.mpr fun hd => by
      have hmem := mem_deliverables.mpr hd
      rw [Finset.card_eq_zero.mp hcard] at hmem
      exact absurd hmem (Finset.notMem_empty j)
    refine ⟨[], .nil, fun i => ?_, fun n => ?_⟩
    · rw [hnone i]
      simp
    · rw [List.length_nil, Nat.zero_add, claims_idle haddr hnone, List.nil_append]
  | succ k ih =>
    rcases claimed_winner r c with ⟨-, hnone⟩ | hwin
    · have hempty : deliverables r c = ∅ := Finset.eq_empty_of_forall_notMem fun j hj =>
        Bool.false_ne_true ((hnone j).symm.trans (mem_deliverables.mp hj))
      rw [hempty] at hcard
      cases hcard
    · obtain ⟨hpos, hlt⟩ := claimed_lt hc hlast hwin
      have hleft : ∀ j, deliverable (setPending r (claimed r c) false) c j = true ↔
          deliverable r c j = true ∧ j ≠ claimed r c := fun j => deliverable_setPending hlt hc
      have hlast' : deliverable (setPending r (claimed r c) false) c plicMaxIrq = false :=
        Bool.eq_false_iff.mpr fun hd =>
          Bool.false_ne_true (hlast.symm.trans ((hleft plicMaxIrq).mp hd).1)
      have herase : deliverables (setPending r (claimed r c) false) c =
          (deliverables r c).erase (claimed r c) := by
        ext j
        rw [mem_deliverables, hleft, Finset.mem_erase, mem_deliverables, and_comm]
      have hcard' : (deliverables (setPending r (claimed r c) false) c).card = k := by
        rw [herase, Finset.card_erase_of_mem (mem_deliverables.mpr hwin.1), hcard]
        rfl
      obtain ⟨l, hsorted, hmem, hrun⟩ := ih hlast' hcard'
      have hin : ∀ j ∈ l, deliverable r c j = true ∧ j ≠ claimed r c := fun j hj =>
        (hleft j).mp ((hmem j).mp hj)
      refine ⟨claimed r c :: l, List.pairwise_cons.mpr ⟨fun j hj => ?_, ?_⟩, fun i => ?_,
        fun n => ?_⟩
      · exact hwin.2 j (hin j hj).1 (hin j hj).2
      · refine hsorted.imp_of_mem fun hj hk h => ?_
        exact before_setPending hlt (deliverable_valid (hin _ hj).1).2
          (deliverable_valid (hin _ hk).1).2 h
      · rw [List.mem_cons, hmem, hleft]
        by_cases hi : i = claimed r c
        · simp [hi, hwin.1]
        · simp [hi]
      · have hstep : (claimed r c :: l).length + n = l.length + n + 1 := by
          rw [List.length_cons]
          omega
        rw [hstep, claims, claim_value haddr, claim_after haddr, if_pos (Nat.ne_of_gt hpos), hrun n,
          List.cons_append]

/-- Where the last irq is not deliverable to the context, a claim returns 0 and changes nothing iff
no irq with a word of its own is ready; otherwise it returns the first of the highest priority and
clears its pending bit and nothing else; and further claims return the ready irqs in order. -/
theorem vplic_claim_exact (haddr : claimContext (plicOffset addr) = some c)
    (hlast : deliverable r c plicMaxIrq = false) :
    (((Op.read addr).run ⟨r, []⟩).1.1 = 0 ∧ ((Op.read addr).run ⟨r, []⟩).2.regs = r ↔
      ∀ i, 0 < i → i < plicMaxIrq → ¬ Ready r c i) ∧
    (∀ irq, ((Op.read addr).run ⟨r, []⟩).1.1.toNat = irq → irq ≠ 0 →
      irq < plicMaxIrq ∧ Ready r c irq ∧
      (∀ j, 0 < j → j < plicMaxIrq → Ready r c j → j ≠ irq → Before r irq j) ∧
      Cleared r ((Op.read addr).run ⟨r, []⟩).2.regs irq) ∧
    ∃ l : List Nat, l.Pairwise (Before r) ∧
      (∀ i, i ∈ l ↔ 0 < i ∧ i < plicMaxIrq ∧ Ready r c i) ∧
      ∀ n, claims addr (l.length + n) r = l ++ List.replicate n 0 := by
  obtain ⟨hc, -⟩ := claimContext_some haddr
  have hready : ∀ i, deliverable r c i = true ↔ 0 < i ∧ i < plicMaxIrq ∧ Ready r c i := fun i =>
    deliverable_iff_ready hc hlast
  have hval : ((Op.read addr).run ⟨r, []⟩).1.1.toNat = claimed r c := claim_value haddr ⟨r, []⟩
  have hafter := claim_after (r := r) haddr
  refine ⟨?_, ?_, ?_⟩
  · rcases claimed_winner r c with ⟨h0, hnone⟩ | hwin
    · have hregs : ((Op.read addr).run ⟨r, []⟩).2.regs = r := by
        rw [hafter, h0, if_neg (not_not.mpr rfl)]
      refine iff_of_true ⟨BitVec.eq_of_toNat_eq (hval.trans h0), hregs⟩ fun i hpos hlt hr => ?_
      exact Bool.false_ne_true ((hnone i).symm.trans ((hready i).mpr ⟨hpos, hlt, hr⟩))
    · obtain ⟨hpos, hlt⟩ := claimed_lt hc hlast hwin
      refine iff_of_false (fun h => ?_) fun h => h _ hpos hlt ((hready _).mp hwin.1).2.2
      rw [← hval, h.1] at hpos
      exact absurd hpos (Nat.lt_irrefl 0)
  · rintro irq hirq hne
    rw [hval] at hirq
    subst hirq
    rcases claimed_winner r c with ⟨h0, -⟩ | hwin
    · exact absurd h0 hne
    · obtain ⟨-, hlt, hr⟩ := (hready _).mp hwin.1
      refine ⟨hlt, hr, fun j hpos hj hrj => hwin.2 j ((hready j).mpr ⟨hpos, hj, hrj⟩), ?_⟩
      rw [hafter, if_pos hne]
      exact cleared_setPending hlt
  · obtain ⟨l, hsorted, hmem, hrun⟩ := claims_drain hc haddr hlast
    exact ⟨l, hsorted, fun i => (hmem i).trans (hready i), hrun⟩

end

/-- The UART's irq raised and enabled for context 0. -/
def uartRaised : Regs := fun a =>
  if a = (Ref.pending 0).offset ∨ a = (Ref.enable 0 0).offset then 1#32 <<< 10 else initRegs a

theorem vplic_claim_exact_uart : Ready uartRaised 0 10 ∧
    ((Op.read 0x0c200004).run ⟨uartRaised, []⟩).1.1 ≠ 0 := by
  have hready : Ready uartRaised 0 10 := by
    unfold Ready
    decide +kernel
  have hctx : claimContext (plicOffset 0x0c200004) = some 0 := by decide
  have hlast : deliverable uartRaised 0 plicMaxIrq = false := by decide +kernel
  have hclaim := vplic_claim_exact hctx hlast
  refine ⟨hready, fun h0 => ?_⟩
  have hregs : ((Op.read 0x0c200004).run ⟨uartRaised, []⟩).2.regs = uartRaised := by
    rw [claim_after hctx, ← claim_value hctx ⟨uartRaised, []⟩, h0]
    rfl
  exact (hclaim.1.mp ⟨h0, hregs⟩) 10 (by decide) (by decide) hready

end HyperCore.Vplic
