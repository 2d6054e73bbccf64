import Mathlib

/-!
# An allocator that may answer NULL

A program with an allocator is a function of what the allocator answers: `answer k` is its answer to
call `k`. The heap counts the calls and lists the blocks that were handed out and not freed. A
dereference of NULL has no result.

`Demands n` says of a program that it makes `n` calls and dereferences every answer: it runs through
iff none of the answers is NULL. Programs in sequence add up their demands.
-/

namespace NullAlloc

structure Heap where
  calls : Nat
  live : List Nat

abbrev AllocM := StateT Heap Option

variable {α β : Type} {answer : Nat → Option Nat}

/-- The next answer of the allocator. -/
def allocate (answer : Nat → Option Nat) : AllocM (Option Nat) := fun h =>
  some (answer h.calls, ⟨h.calls + 1, (answer h.calls).toList ++ h.live⟩)

/-- The release of a block. -/
def release (block : Nat) : AllocM Unit := fun h => some ((), { h with live := h.live.erase block })

/-- A use of a pointer, which is not NULL afterwards. -/
def use (pointer : Option Nat) : AllocM Nat := fun h => pointer.map fun block => (block, h)

/-- `n` calls of the allocator, each with its answer used. -/
structure Demands (answer : Nat → Option Nat) (f : AllocM α) (n : Nat) : Prop where
  runs : ∀ h, (∀ k, h.calls ≤ k → k < h.calls + n → answer k ≠ none) →
    ∃ a h', f h = some (a, h') ∧ h'.calls = h.calls + n
  faults : ∀ h k, h.calls ≤ k → k < h.calls + n → answer k = none → f h = none

theorem bind_eq {f : AllocM α} {g : α → AllocM β} {h h' : Heap} {a : α}
    (hf : f h = some (a, h')) : (f >>= g) h = g a h' := by
  change (f h).bind (fun r => g r.1 r.2) = _
  rw [hf]
  rfl

theorem bind_none {f : AllocM α} {g : α → AllocM β} {h : Heap} (hf : f h = none) :
    (f >>= g) h = none := by
  change (f h).bind (fun r => g r.1 r.2) = _
  rw [hf]
  rfl

theorem bind_eq_some {f : AllocM α} {g : α → AllocM β} {h h' : Heap} {b : β}
    (hrun : (f >>= g) h = some (b, h')) :
    ∃ a h₁, f h = some (a, h₁) ∧ g a h₁ = some (b, h') := by
  cases hf : f h with
  | none =>
    rw [bind_none hf] at hrun
    cases hrun
  | some r =>
    rw [bind_eq hf] at hrun
    exact ⟨r.1, r.2, rfl, hrun⟩

theorem allocate_some {h : Heap} {block : Nat} (hb : answer h.calls = some block) :
    allocate answer h = some (some block, ⟨h.calls + 1, block :: h.live⟩) := by
  unfold allocate
  rw [hb]
  rfl

theorem allocate_none {h : Heap} (hb : answer h.calls = none) :
    allocate answer h = some (none, ⟨h.calls + 1, h.live⟩) := by
  unfold allocate
  rw [hb]
  rfl

theorem demands_pure (a : α) : Demands answer (pure a : AllocM α) 0 :=
  ⟨fun h _ => ⟨a, h, rfl, rfl⟩, fun h k hlo hhi _ => by omega⟩

theorem Demands.bind {f : AllocM α} {g : α → AllocM β} {n m : Nat} (hf : Demands answer f n)
    (hg : ∀ a, Demands answer (g a) m) : Demands answer (f >>= g) (n + m) := by
  refine ⟨fun h hall => ?_, fun h k hlo hhi hnull => ?_⟩
  · obtain ⟨a, h₁, hrun, hcalls⟩ := hf.runs h fun k hlo hhi => hall k hlo (by omega)
    obtain ⟨b, h₂, hrun', hcalls'⟩ := (hg a).runs h₁ fun k hlo hhi => hall k (by omega) (by omega)
    exact ⟨b, h₂, (bind_eq hrun).trans hrun', by omega⟩
  · -- a NULL of the second program matters only where the first one runs through
    by_cases hfirst : ∀ j, h.calls ≤ j → j < h.calls + n → answer j ≠ none
    · obtain ⟨a, h₁, hrun, hcalls⟩ := hf.runs h hfirst
      have hin : h.calls + n ≤ k := by
        by_contra hout
        exact hfirst k hlo (by omega) hnull
      rw [bind_eq hrun]
      exact (hg a).faults h₁ k (by omega) (by omega) hnull
    · simp only [ne_eq, not_forall, not_not] at hfirst
      obtain ⟨j, hjlo, hjhi, hj⟩ := hfirst
      exact bind_none (hf.faults h j hjlo hjhi hj)

/-- An allocation whose answer is used unseen. -/
theorem demands_allocate : Demands answer (allocate answer >>= use) 1 := by
  have hrun (h : Heap) : (allocate answer >>= use) h =
      (answer h.calls).map fun block => (block, ⟨h.calls + 1, block :: h.live⟩) := by
    change (answer h.calls).map _ = _
    cases answer h.calls <;> rfl
  refine ⟨fun h hall => ?_, fun h k hlo hhi hnull => ?_⟩
  · obtain ⟨block, hblock⟩ := Option.ne_none_iff_exists'.mp
      (hall h.calls (Nat.le_refl _) (Nat.lt_succ_self _))
    exact ⟨block, ⟨h.calls + 1, block :: h.live⟩, by rw [hrun, hblock]; rfl, rfl⟩
  · have hk : k = h.calls := by omega
    rw [hrun, ← hk, hnull]
    rfl

end NullAlloc
