import Mathlib.Logic.Function.Basic
import Mathlib.Logic.Relation

/-!
# A lock word taken with a conditional store

Each party loads the word with a reservation, and takes the lock by a store that succeeds only
while it has the reservation; every store to the word ends the reservations of the others. What a
party has loaded stays the word's value as long as it has its reservation. That is all there is to
exclusion: a store that succeeds replaces the value that was tested.

Reservations may end at any time.
-/

namespace Exclusive

variable {ι : Type} [DecidableEq ι]

inductive Phase
  | away
  /-- the word has been loaded with a reservation -/
  | tested (value : Nat)
  | owner
deriving DecidableEq

structure Lock (ι : Type) where
  value : Nat
  reserved : ι → Bool
  phase : ι → Phase

inductive Step (s s' : Lock ι) : Prop
  | load (i : ι) : s.phase i = .away → s'.value = s.value →
      s'.reserved = Function.update s.reserved i true →
      s'.phase = Function.update s.phase i (.tested s.value) → Step s s'
  | giveUp (i : ι) (v : Nat) : s.phase i = .tested v → s'.value = s.value →
      s'.reserved = s.reserved → s'.phase = Function.update s.phase i .away → Step s s'
  | acquire (i : ι) : s.phase i = .tested 0 → s.reserved i = true → s'.value = 1 →
      (∀ j, s'.reserved j = false) → s'.phase = Function.update s.phase i .owner → Step s s'
  | release (i : ι) : s.phase i = .owner → s'.value = 0 → (∀ j, j ≠ i → s'.reserved j = false) →
      s'.phase = Function.update s.phase i .away → Step s s'
  | lose (i : ι) : s'.value = s.value → s'.reserved = Function.update s.reserved i false →
      s'.phase = s.phase → Step s s'

structure Inv (s : Lock ι) : Prop where
  current : ∀ i v, s.phase i = .tested v → s.reserved i = true → s.value = v
  one : ∀ i j, s.phase i = .owner → s.phase j = .owner → i = j
  held : (∃ i, s.phase i = .owner) ↔ s.value ≠ 0

theorem update_phase {f : ι → Phase} {i j : ι} {p q : Phase} (h : Function.update f i p j = q) :
    (j = i ∧ p = q) ∨ (j ≠ i ∧ f j = q) := by
  by_cases hj : j = i
  · subst hj
    rw [Function.update_self] at h
    exact Or.inl ⟨rfl, h⟩
  · rw [Function.update_of_ne hj] at h
    exact Or.inr ⟨hj, h⟩

/-- Who owns the lock does not change when a party that does not own it moves elsewhere. -/
theorem owner_update {s : Lock ι} {i : ι} {p : Phase} (hi : s.phase i ≠ .owner) (hp : p ≠ .owner)
    (j : ι) : Function.update s.phase i p j = .owner ↔ s.phase j = .owner := by
  by_cases hj : j = i
  · subst hj
    rw [Function.update_self]
    exact iff_of_false hp hi
  · rw [Function.update_of_ne hj]

theorem Inv.step {s s' : Lock ι} (h : Inv s) (hs : Step s s') : Inv s' := by
  cases hs with
  | load i hi hv hr hp =>
    have howner := fun j => owner_update (s := s) (i := i) (p := .tested s.value)
      (by rw [hi]; exact Phase.noConfusion) Phase.noConfusion j
    refine ⟨fun j v hj hres => ?_, fun j k hj hk => ?_, ?_⟩
    · rw [hp] at hj
      rcases update_phase hj with ⟨-, he⟩ | ⟨hne, hj'⟩
      · cases he
        exact hv
      · rw [hr, Function.update_of_ne hne] at hres
        exact hv.trans (h.current j v hj' hres)
    · rw [hp] at hj hk
      exact h.one j k ((howner j).mp hj) ((howner k).mp hk)
    · rw [hp, hv]
      simp only [howner]
      exact h.held
  | giveUp i v hi hv hr hp =>
    have howner := fun j => owner_update (s := s) (i := i) (p := .away)
      (by rw [hi]; exact Phase.noConfusion) Phase.noConfusion j
    refine ⟨fun j v hj hres => ?_, fun j k hj hk => ?_, ?_⟩
    · rw [hp] at hj
      rcases update_phase hj with ⟨-, he⟩ | ⟨-, hj'⟩
      · cases he
      · rw [hr] at hres
        exact hv.trans (h.current j v hj' hres)
    · rw [hp] at hj hk
      exact h.one j k ((howner j).mp hj) ((howner k).mp hk)
    · rw [hp, hv]
      simp only [howner]
      exact h.held
  | acquire i hi hres hv hr hp =>
    have hzero := h.current i 0 hi hres
    have hnone : ∀ j, s.phase j ≠ .owner := fun j hj => h.held.mp ⟨j, hj⟩ hzero
    have howner : ∀ j, s'.phase j = .owner → j = i := by
      intro j hj
      rw [hp] at hj
      rcases update_phase hj with ⟨he, -⟩ | ⟨-, hj'⟩
      · exact he
      · exact absurd hj' (hnone j)
    refine ⟨fun j v _ hres' => ?_, fun j k hj hk => ?_, iff_of_true ⟨i, ?_⟩ ?_⟩
    · rw [hr j] at hres'
      cases hres'
    · rw [howner j hj, howner k hk]
    · rw [hp, Function.update_self]
    · rw [hv]
      exact Nat.one_ne_zero
  | release i hi hv hr hp =>
    refine ⟨fun j v hj hres => ?_, fun j k hj hk => ?_, iff_of_false ?_ ?_⟩
    · rw [hp] at hj
      rcases update_phase hj with ⟨-, he⟩ | ⟨hne, -⟩
      · cases he
      · rw [hr j hne] at hres
        cases hres
    · rw [hp] at hj hk
      rcases update_phase hj with ⟨-, he⟩ | ⟨-, hj'⟩
      · cases he
      · rcases update_phase hk with ⟨-, he⟩ | ⟨-, hk'⟩
        · cases he
        · exact h.one j k hj' hk'
    · rintro ⟨j, hj⟩
      rw [hp] at hj
      rcases update_phase hj with ⟨-, he⟩ | ⟨hne, hj'⟩
      · cases he
      · exact hne (h.one j i hj' hi)
    · exact not_not.mpr hv
  | lose i hv hr hp =>
    refine ⟨fun j v hj hres => ?_, fun j k hj hk => ?_, ?_⟩
    · rw [hp] at hj
      rw [hr] at hres
      by_cases hji : j = i
      · rw [hji, Function.update_self] at hres
        cases hres
      · rw [Function.update_of_ne hji] at hres
        exact hv.trans (h.current j v hj hres)
    · rw [hp] at hj hk
      exact h.one j k hj hk
    · rw [hp, hv]
      exact h.held

theorem Inv.steps {s s' : Lock ι} (h : Inv s) (hs : Relation.ReflTransGen Step s s') : Inv s' := by
  induction hs with
  | refl => exact h
  | tail _ hstep ih => exact ih.step hstep

/-- A free word that nobody has loaded. -/
def free (ι : Type) : Lock ι := ⟨0, fun _ => false, fun _ => .away⟩

theorem inv_free : Inv (free ι) := by
  refine ⟨fun i v h _ => ?_, fun i j h _ => ?_, iff_of_false ?_ ?_⟩
  · cases h
  · cases h
  · rintro ⟨i, h⟩
    cases h
  · exact fun h => h rfl

end Exclusive
