import HyperCore.Core.HarmlessMap

/-!
# A walk in software

The hypervisor has functions that walk a table tree as the MMU does, through the direct map, and answer
the page of an address, or 0. `Agrees` says when such an answer is that of the MMU.
-/

namespace HyperCore

open RadixTable Bitmap PageAlloc ArchPage TableMap

/-- A walk in software agrees with the translation of the hardware: 0 for a fault, or a page from which
`combine` makes the address. -/
def Agrees (combine : Nat → Nat) (h : Host) (run : EStateM.Result Stop Host Nat) : Option Nat → Prop
  | none => run = .ok 0 h
  | some pa => ∃ page, page ≠ 0 ∧ run = .ok page h ∧ combine page = pa

section

variable {combine : Nat → Nat} {h : Host} {hardware : Option Nat}

/-- A walk that faults agrees with nothing. -/
theorem Agrees.not_error {e : Stop} {h' : Host} : ¬ Agrees combine h (.error e h') hardware := by
  cases hardware with
  | none => exact fun hag => nomatch hag
  | some pa => exact fun ⟨_, _, hag, _⟩ => nomatch hag

/-- A walk that returned agrees by its value. -/
theorem agrees_ok {page : Nat} : Agrees combine h (.ok page h) hardware ↔
    if page = 0 then hardware = none else hardware = some (combine page) := by
  cases hardware with
  | none =>
    constructor
    · intro hag
      obtain ⟨rfl, -⟩ := EStateM.Result.ok.inj hag
      rfl
    · intro hpage
      split at hpage
      · next h0 => rw [Agrees, h0]
      · cases hpage
  | some pa =>
    constructor
    · rintro ⟨page', hne, hag, rfl⟩
      obtain ⟨rfl, -⟩ := EStateM.Result.ok.inj hag
      rw [if_neg hne]
    · intro hpage
      split at hpage
      · cases hpage
      · next hne => exact ⟨page, hne, rfl, (Option.some.inj hpage).symm⟩

end

end HyperCore
