import Mathlib

/-!
# One place for each thing

`OnePlace live at` says that the live things are those that are in some place, and that
no thing is in two. A step of a system moves a few things and leaves the rest, which
keeps it (`OnePlace.move`).
-/

namespace Places

variable {α P : Type}

structure OnePlace (live : α → Prop) (place : α → P → Prop) : Prop where
  somewhere : ∀ a, live a → ∃ p, place a p
  live : ∀ a p, place a p → live a
  alone : ∀ a p p', place a p → place a p' → p = p'

variable {live live' : α → Prop} {place place' : α → P → Prop}

/-- The things that `dest` names go to the place it gives, all others stay. -/
theorem OnePlace.move (h : OnePlace live place) (dest : α → Option P)
    (hplace : ∀ a p, place' a p ↔ (dest a).elim (place a p) (p = ·))
    (hlive : ∀ a, live' a ↔ (dest a).isSome ∨ live a) : OnePlace live' place' := by
  refine ⟨fun a ha => ?_, fun a p hin => ?_, fun a p p' hin hin' => ?_⟩
  · cases hd : dest a with
    | none =>
      rw [hlive, hd] at ha
      obtain ⟨p, hin⟩ := h.somewhere a (ha.resolve_left Bool.false_ne_true)
      exact ⟨p, by rw [hplace, hd]; exact hin⟩
    | some d => exact ⟨d, by rw [hplace, hd]; rfl⟩
  · rw [hplace] at hin
    rw [hlive]
    cases hd : dest a with
    | none =>
      rw [hd] at hin
      exact .inr (h.live a p hin)
    | some d => exact .inl rfl
  · rw [hplace] at hin hin'
    cases hd : dest a with
    | none =>
      rw [hd] at hin hin'
      exact h.alone a p p' hin hin'
    | some d =>
      rw [hd] at hin hin'
      exact hin.trans hin'.symm

/-- Nothing moves. -/
theorem OnePlace.congr (h : OnePlace live place) (hplace : ∀ a p, place' a p ↔ place a p)
    (hlive : ∀ a, live' a ↔ live a) : OnePlace live' place' := by
  refine h.move (fun _ => none) hplace fun a => ?_
  rw [hlive]
  simp only [Option.isSome_none, Bool.false_eq_true, false_or]

/-- One thing goes to a place that it alone takes. -/
theorem OnePlace.moveOne [DecidableEq α] (h : OnePlace live place) (a₀ : α) (p₀ : P)
    (hself : ∀ p, place' a₀ p ↔ p = p₀) (hother : ∀ a p, a ≠ a₀ → (place' a p ↔ place a p))
    (hlive : ∀ a, live' a ↔ a = a₀ ∨ live a) : OnePlace live' place' := by
  refine h.move (fun a => if a = a₀ then some p₀ else none) (fun a p => ?_) (fun a => ?_)
  · by_cases ha : a = a₀
    · subst ha
      rw [if_pos rfl]
      exact hself p
    · rw [if_neg ha]
      exact hother a p ha
  · rw [hlive]
    by_cases ha : a = a₀
    · simp only [ha, true_or, if_true, Option.isSome_some]
    · simp only [ha, false_or, if_false, Option.isSome_none, Bool.false_eq_true]

end Places
