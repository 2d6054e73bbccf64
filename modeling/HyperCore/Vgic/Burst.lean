import HyperCore.Vgic.Virq

/-!
# Injections between two flushes

`gic_vcpu_inject_virq` merges an interrupt that is queued already and drops one that finds the queue
full. The queue has eight entries, and a vCPU has more interrupts than that: 16 SGIs, the timer, the
UART. After any number of injections without a flush it holds the first eight different ones
(`burst_queue`), so the drop is the only loss and `inject_exact` says when it happens.
-/

namespace HyperCore.Vgic

section

variable {α : Type} [DecidableEq α] {l : List α} {a : α}

theorem eraseDups_of_nodup (h : l.Nodup) : l.eraseDups = l := by
  induction l with
  | nil => rfl
  | cons a l ih =>
    obtain ⟨hout, hrest⟩ := List.nodup_cons.mp h
    have hfilter : l.filter (fun b => !b == a) = l := by
      refine List.filter_eq_self.mpr fun b hb => ?_
      have hne : b ≠ a := by
        rintro rfl
        exact hout hb
      simp [hne]
    rw [List.eraseDups_cons, hfilter, ih hrest]

/-- A second occurrence does not count. -/
theorem eraseDups_append_cons (h : a ∈ l) (vs : List α) :
    (l ++ a :: vs).eraseDups = (l ++ vs).eraseDups := by
  have hgone : (a :: vs).removeAll l = vs.removeAll l := by
    rw [List.cons_removeAll, if_neg (by simp [h])]
  rw [List.eraseDups_append, List.eraseDups_append, hgone]

/-- A list of distinct elements comes first. -/
theorem take_eraseDups_append (h : l.Nodup) (vs : List α) :
    (l ++ vs).eraseDups.take l.length = l := by
  rw [List.eraseDups_append, eraseDups_of_nodup h, List.take_left]

end

variable {q : VirqQueue} {virq : BitVec 32}

/-- A full queue takes nothing new, and everything else is in the queue afterwards. -/
theorem virq_mem_inject : virq ∈ (gicVcpuInjectVirq q virq).toList ↔
    q.toList.length < vcpuMaxPendingVirq ∨ virq ∈ q.toList := by
  rw [gicVcpuInjectVirq_toList]
  split
  · next hroom =>
    exact iff_of_true (List.mem_append_right _ (List.mem_singleton_self virq)) (.inl hroom.1)
  · next hnone =>
    refine ⟨.inr, fun h => ?_⟩
    rcases h with hroom | hin
    · by_contra hout
      exact hnone ⟨hroom, hout⟩
    · exact hin

theorem inject_prefix : q.toList <+: (gicVcpuInjectVirq q virq).toList := by
  rw [gicVcpuInjectVirq_toList]
  split
  · exact List.prefix_append _ _
  · exact List.prefix_refl _

/-- The injection of one interrupt keeps the invariant of the queue. -/
theorem queueInv_inject (h : QueueInv q) : QueueInv (gicVcpuInjectVirq q virq) := by
  have hstep : QueueInv ((⟨q, clearIch, newVgicContext⟩ : VcpuIrq).step 0 (.inject virq)).queue :=
    queueInv_step h (.inject virq)
  exact hstep

/-- After a burst the queue holds the first eight different interrupts of those it held and those
that were injected. -/
theorem burst_queue (h : QueueInv q) (vs : List (BitVec 32)) :
    (vs.foldl gicVcpuInjectVirq q).toList = (q.toList ++ vs).eraseDups.take vcpuMaxPendingVirq := by
  induction vs generalizing q with
  | nil =>
    rw [List.foldl_nil, List.append_nil, eraseDups_of_nodup h.2, List.take_of_length_le]
    rw [length_toList]
    exact h.1
  | cons virq vs ih =>
    rw [List.foldl_cons, ih (queueInv_inject h), gicVcpuInjectVirq_toList]
    by_cases hin : virq ∈ q.toList
    · rw [if_neg fun hnew => hnew.2 hin, eraseDups_append_cons hin]
    · by_cases hroom : q.toList.length < vcpuMaxPendingVirq
      · rw [if_pos ⟨hroom, hin⟩, List.append_assoc, List.singleton_append]
      · have hfull : q.toList.length = vcpuMaxPendingVirq := by
          have := h.1
          rw [← length_toList] at this
          omega
        rw [if_neg fun hnew => hroom hnew.1, ← hfull, take_eraseDups_append h.2,
          take_eraseDups_append h.2]

/-- In every run: an injected interrupt is in the queue afterwards unless the queue is full of
others, what was queued stays in front, and a burst leaves the first eight different interrupts. -/
theorem inject_exact (vtr : BitVec 64) (hw : IchRegs) (ctx : VgicContext) (steps : List IrqStep) :
    let q := ((VcpuIrq.new hw ctx).run (gicEmulLrCount vtr) steps).queue
    (∀ virq, (virq ∈ (gicVcpuInjectVirq q virq).toList ↔
        q.toList.length < vcpuMaxPendingVirq ∨ virq ∈ q.toList) ∧
      q.toList <+: (gicVcpuInjectVirq q virq).toList) ∧
    ∀ vs : List (BitVec 32), (vs.foldl gicVcpuInjectVirq q).toList =
      (q.toList ++ vs).eraseDups.take vcpuMaxPendingVirq := by
  intro q
  have hnew : QueueInv (VcpuIrq.new hw ctx).queue := ⟨Nat.zero_le _, List.nodup_nil⟩
  have hinv : QueueInv q := queueInv_run hnew steps
  exact ⟨fun virq => ⟨virq_mem_inject, inject_prefix⟩, burst_queue hinv⟩

/-- Eight SGIs are queued, and the ninth is dropped. -/
theorem ninth_sgi_dropped : ¬ ∀ (steps : List IrqStep) (virq : BitVec 32),
    virq ∈ (gicVcpuInjectVirq
      ((VcpuIrq.new clearIch newVgicContext).run 4 steps).queue virq).toList := by
  intro h
  exact absurd (h [.inject 0, .inject 1, .inject 2, .inject 3, .inject 4, .inject 5, .inject 6,
    .inject 7] 8) (by decide +kernel)

end HyperCore.Vgic
