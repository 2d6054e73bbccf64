import Mathlib

/-!
# Reads with a record of what they dereference

A computation that only reads memory is the list of the addresses it dereferences and its result,
which is missing when a dereference faults. `Within S` says that every address of the list is in
`S`; it is computed along the program, a continuation counting only when it is run.
-/

namespace ReadLog

structure Reads (α : Type) where
  touched : List Nat
  result : Option α

variable {α β : Type}

def Reads.andThen (m : Reads α) (f : α → Reads β) : Reads β :=
  match m.result with
  | none => ⟨m.touched, none⟩
  | some a => ⟨m.touched ++ (f a).touched, (f a).result⟩

instance : Monad Reads where
  pure a := ⟨[], some a⟩
  bind := Reads.andThen

/-- A dereference of one byte; memory is partial. -/
def deref (view : Nat → Option (BitVec 8)) (v : Nat) : Reads (BitVec 8) := ⟨[v], view v⟩

/-- The little-endian load of `n` bytes. -/
def load (view : Nat → Option (BitVec 8)) (v : Nat) : Nat → Reads (BitVec 64)
  | 0 => pure 0
  | n + 1 => do
    let value ← load view v n
    let b ← deref view (v + n)
    pure (value ||| b.setWidth 64 <<< (8 * n))

/-- The number in the `n` bytes from `v` on, where unmapped bytes count as 0. -/
def word (view : Nat → Option (BitVec 8)) (v : Nat) : Nat → BitVec 64
  | 0 => 0
  | n + 1 => word view v n ||| ((view (v + n)).getD 0).setWidth 64 <<< (8 * n)

def Reads.Within (m : Reads α) (S : Nat → Prop) : Prop := ∀ v ∈ m.touched, S v

variable {S : Nat → Prop} {view : Nat → Option (BitVec 8)} {m : Reads α} {f : α → Reads β}

@[simp] theorem result_pure (a : α) : (pure a : Reads α).result = some a := rfl

@[simp] theorem within_pure (a : α) : (pure a : Reads α).Within S := by
  intro v hv
  cases hv

@[simp] theorem within_deref {v : Nat} : (deref view v).Within S ↔ S v := by
  simp [Reads.Within, deref]

theorem result_bind_eq : (m >>= f).result = m.result.bind fun a => (f a).result := by
  change (m.andThen f).result = _
  unfold Reads.andThen
  cases m.result <;> rfl

theorem result_bind {a : α} (h : m.result = some a) : (m >>= f).result = (f a).result := by
  rw [result_bind_eq, h]
  rfl

theorem bind_result_eq_some {b : β} (h : (m >>= f).result = some b) :
    ∃ a, m.result = some a ∧ (f a).result = some b := by
  rw [result_bind_eq] at h
  exact Option.bind_eq_some_iff.mp h

theorem bind_isSome (hf : ∀ a, (f a).result.isSome) :
    (m >>= f).result.isSome ↔ m.result.isSome := by
  rw [result_bind_eq]
  cases m.result with
  | none => exact Iff.rfl
  | some a => exact iff_of_true (hf a) rfl

theorem within_bind :
    (m >>= f).Within S ↔ m.Within S ∧ ∀ a, m.result = some a → (f a).Within S := by
  change (m.andThen f).Within S ↔ _
  cases h : m.result with
  | none => simp [Reads.andThen, h, Reads.Within]
  | some a => simp [Reads.andThen, h, Reads.Within, List.mem_append, or_imp, forall_and]

/-- The rule for a first part whose result is known once it stays within. -/
theorem within_bind_of {a : α} (h : m.Within S → m.result = some a) :
    (m >>= f).Within S ↔ m.Within S ∧ (f a).Within S := by
  rw [within_bind]
  refine and_congr_right fun hm => ⟨fun hf => hf a (h hm), fun hf a' ha' => ?_⟩
  rw [h hm] at ha'
  cases ha'
  exact hf

theorem result_load {v n : Nat} (h : ∀ k, k < n → (view (v + k)).isSome) :
    (load view v n).result = some (word view v n) := by
  induction n with
  | zero => rfl
  | succ n ih =>
    obtain ⟨b, hb⟩ := Option.isSome_iff_exists.mp (h n (Nat.lt_succ_self n))
    rw [load, result_bind (ih fun k hk => h k (Nat.lt_succ_of_lt hk)), result_bind (a := b) hb,
      result_pure, word, hb, Option.getD_some]

/-- A load sees nothing but its bytes. -/
theorem load_congr {view' : Nat → Option (BitVec 8)} {v v' n : Nat}
    (h : ∀ k, k < n → view (v + k) = view' (v' + k)) :
    (load view v n).result = (load view' v' n).result := by
  induction n with
  | zero => rfl
  | succ n ih =>
    have hlow := ih fun k hk => h k (Nat.lt_succ_of_lt hk)
    have hbyte : (deref view (v + n)).result = (deref view' (v' + n)).result :=
      h n (Nat.lt_succ_self n)
    rw [load, load, result_bind_eq, result_bind_eq (m := load view' v' n), hlow]
    refine Option.bind_congr fun value _ => ?_
    rw [result_bind_eq, result_bind_eq (m := deref view' (v' + n)), hbyte]

theorem within_load {v n : Nat} (hS : ∀ v, S v → (view v).isSome) :
    (load view v n).Within S ↔ ∀ k, k < n → S (v + k) := by
  induction n with
  | zero => simp [load]
  | succ n ih =>
    have hres (hm : (load view v n).Within S) : (load view v n).result = some (word view v n) :=
      result_load fun k hk => hS _ (ih.1 hm k hk)
    rw [load, within_bind_of hres, ih, Nat.forall_lt_succ_right]
    refine and_congr_right fun _ => ?_
    rw [within_bind]
    simp

/-! ## Reads that finish -/

/-- The computation finishes, and dereferences `S` only. -/
def Reads.Stays (m : Reads α) (S : Nat → Prop) : Prop := m.result.isSome ∧ m.Within S

theorem stays_pure (a : α) : (pure a : Reads α).Stays S := ⟨rfl, within_pure a⟩

theorem stays_bind :
    (m >>= f).Stays S ↔ m.Stays S ∧ ∀ a, m.result = some a → (f a).Stays S := by
  unfold Reads.Stays
  rw [within_bind, result_bind_eq]
  cases m.result with
  | none => simp
  | some a =>
    simp only [Option.bind_some, Option.isSome_some, true_and, Option.some.injEq, forall_eq']
    exact and_left_comm

/-- The rule for a first part whose result is known. -/
theorem stays_bind_of {a : α} (h : m.result = some a) :
    (m >>= f).Stays S ↔ m.Within S ∧ (f a).Stays S := by
  rw [stays_bind, Reads.Stays, h]
  simp only [Option.isSome_some, true_and, Option.some.injEq, forall_eq']

/-- The rule for a second part that does the same for each result. -/
theorem stays_bind_const {C : Prop} (h : ∀ a, (f a).Stays S ↔ C) :
    (m >>= f).Stays S ↔ m.Stays S ∧ C := by
  rw [stays_bind]
  refine and_congr_right fun hm => ?_
  obtain ⟨a, ha⟩ := Option.isSome_iff_exists.mp hm.1
  exact ⟨fun hall => (h a).mp (hall a ha), fun hC a' _ => (h a').mpr hC⟩

/-- No result: the rounds that a loop may take are used up, or the program is undefined. -/
def stuck : Reads α := ⟨[], none⟩

theorem not_stays_stuck : ¬ (stuck : Reads α).Stays S := fun h => absurd h.1 Bool.false_ne_true

/-- `m || m'` -/
def Reads.or (m m' : Reads Bool) : Reads Bool := do
  let b ← m
  if b then pure true else m'

/-- `m && m'` -/
def Reads.and (m m' : Reads Bool) : Reads Bool := do
  let b ← m
  if b then m' else pure false

theorem stays_or {m m' : Reads Bool} :
    (m.or m').Stays S ↔ m.Stays S ∧ (m.result = some false → m'.Stays S) := by
  unfold Reads.or
  rw [stays_bind]
  refine and_congr_right fun _ => ⟨fun hall hm => hall false hm, fun hfalse b hb => ?_⟩
  cases b with
  | true => exact stays_pure true
  | false => exact hfalse hb

theorem stays_and {m m' : Reads Bool} :
    (m.and m').Stays S ↔ m.Stays S ∧ (m.result = some true → m'.Stays S) := by
  unfold Reads.and
  rw [stays_bind]
  refine and_congr_right fun _ => ⟨fun hall hm => hall true hm, fun htrue b hb => ?_⟩
  cases b with
  | true => exact htrue hb
  | false => exact stays_pure false

theorem result_and {m m' : Reads Bool} {b b' : Bool} (h : m.result = some b)
    (h' : m'.result = some b') : (m.and m').result = some (b && b') := by
  unfold Reads.and
  rw [result_bind h]
  cases b with
  | true => exact h'
  | false => rfl

theorem result_or {m m' : Reads Bool} {b b' : Bool} (h : m.result = some b)
    (h' : m'.result = some b') : (m.or m').result = some (b || b') := by
  unfold Reads.or
  rw [result_bind h]
  cases b with
  | true => rfl
  | false => exact h'

/-! ### More rounds -/

/-- `m'` is `m` if `m` finishes. -/
def Reads.Extends (m m' : Reads α) : Prop := m.result.isSome → m' = m

theorem Reads.Extends.refl (m : Reads α) : m.Extends m := fun _ => rfl

theorem extends_stuck (m : Reads α) : stuck.Extends m := fun h => absurd h Bool.false_ne_true

theorem Reads.Extends.bind {m' : Reads α} {f' : α → Reads β} (hm : m.Extends m')
    (hf : ∀ a, (f a).Extends (f' a)) : (m >>= f).Extends (m' >>= f') := by
  intro hsome
  obtain ⟨b, hb⟩ := Option.isSome_iff_exists.mp hsome
  obtain ⟨a, ha, hfa⟩ := bind_result_eq_some hb
  rw [hm (by rw [ha]; rfl)]
  change m.andThen f' = m.andThen f
  simp only [Reads.andThen, ha, hf a (by rw [hfa]; rfl)]

theorem Reads.Extends.ite {c : Prop} [Decidable c] {m₁ m₁' m₂ m₂' : Reads α} (h₁ : m₁.Extends m₁')
    (h₂ : m₂.Extends m₂') : (if c then m₁ else m₂).Extends (if c then m₁' else m₂') := by
  split
  · exact h₁
  · exact h₂

theorem Reads.Extends.or {m₁ m₁' m₂ m₂' : Reads Bool} (h₁ : m₁.Extends m₁') (h₂ : m₂.Extends m₂') :
    (m₁.or m₂).Extends (m₁'.or m₂') :=
  h₁.bind fun _ => (Reads.Extends.refl _).ite h₂

theorem Reads.Extends.stays {m' : Reads α} (h : m.Extends m') (hm : m.Stays S) : m'.Stays S := by
  rw [h hm.1]
  exact hm

/-! ## Faults -/

/-- The result is missing exactly where a dereference of the program faults. -/
def Reads.Honest (view : Nat → Option (BitVec 8)) (m : Reads α) : Prop :=
  m.result.isSome ↔ m.Within fun v => (view v).isSome

theorem honest_pure (a : α) : (pure a : Reads α).Honest view :=
  iff_of_true rfl (within_pure a)

theorem honest_deref (v : Nat) : (deref view v).Honest view := by
  rw [Reads.Honest, within_deref]
  rfl

theorem Reads.Honest.bind (hm : m.Honest view) (hf : ∀ a, (f a).Honest view) :
    (m >>= f).Honest view := by
  unfold Reads.Honest at hm
  rw [Reads.Honest, within_bind, ← hm]
  cases hres : m.result with
  | none =>
    change (m.andThen f).result.isSome = true ↔ _
    rw [Reads.andThen, hres]
    simp
  | some a =>
    have hfa : (f a).result.isSome ↔ (f a).Within fun v => (view v).isSome := hf a
    rw [result_bind hres, hfa]
    simp

theorem Reads.Honest.ite {c : Prop} [Decidable c] {m₁ m₂ : Reads α} (h₁ : m₁.Honest view)
    (h₂ : m₂.Honest view) : (if c then m₁ else m₂).Honest view := by
  split
  · exact h₁
  · exact h₂

theorem honest_load (v n : Nat) : (load view v n).Honest view := by
  induction n with
  | zero => exact honest_pure 0
  | succ n ih => exact ih.bind fun _ => (honest_deref _).bind fun _ => honest_pure _

end ReadLog
