import HyperCore.Lib.ReadLog

/-!
# The string functions of C, with a record of what they read

Memory is total here, so each function has a result; `UpTo` says what it reads: the bytes from its
argument on, up to the first at which it stops, and no more than it may.

`strcmp`, `strncmp` and `memcmp` compare with a string of the program, given by its characters, and tell
whether the two are equal.
-/

namespace CString

open ReadLog

abbrev Chars := List (BitVec 8)

/-- The characters of a literal. -/
def chars (text : String) : Chars := text.toList.map fun c => BitVec.ofNat 8 c.toNat

/-! ## The functions -/

section

variable (mem : Nat → BitVec 8)

def byte (p : Nat) : Reads (BitVec 8) := deref (fun a => some (mem a)) p

/-- `strnlen(p, n)` -/
def strnlen : (p n : Nat) → Reads Nat
  | _, 0 => pure 0
  | p, n + 1 => do
    let c ← byte mem p
    if c = 0 then pure 0
    else do
      let k ← strnlen (p + 1) n
      pure (k + 1)

/-- `!strcmp(p, s)` -/
def strcmp : (p : Nat) → Chars → Reads Bool
  | p, [] => do
    let d ← byte mem p
    pure (d == 0)
  | p, c :: s => do
    let d ← byte mem p
    if d = c then strcmp (p + 1) s else pure false

/-- `!strncmp(p, s, strlen(s))` -/
def strncmp : (p : Nat) → Chars → Reads Bool
  | _, [] => pure true
  | p, c :: s => do
    let d ← byte mem p
    if d = c then strncmp (p + 1) s else pure false

/-- `!memcmp(p, s, strlen(s))` -/
def memcmp : (p : Nat) → Chars → Reads Bool
  | _, [] => pure true
  | p, c :: s => do
    let d ← byte mem p
    let rest ← memcmp (p + 1) s
    pure (d == c && rest)

end

/-! ## What they read -/

/-- The bytes from `p` on are in `S`, up to the first whose index stops and that one included, `n` of them
at most. -/
def UpTo (S : Nat → Prop) (n : Nat) (stop : Nat → Prop) (p : Nat) : Prop :=
  ∀ i, i < n → (∀ j, j < i → ¬ stop j) → S (p + i)

section

variable {S : Nat → Prop} {stop : Nat → Prop} {mem : Nat → BitVec 8} {n p : Nat}

theorem upTo_zero : UpTo S 0 stop p := fun i hi => absurd hi (Nat.not_lt_zero i)

theorem upTo_succ :
    UpTo S (n + 1) stop p ↔ S p ∧ (¬ stop 0 → UpTo S n (fun j => stop (j + 1)) (p + 1)) := by
  constructor
  · intro h
    refine ⟨h 0 (Nat.succ_pos n) fun j hj => absurd hj (Nat.not_lt_zero j), fun h0 i hi hgo => ?_⟩
    have hi' := h (i + 1) (Nat.succ_lt_succ hi) fun j hj => by
      cases j with
      | zero => exact h0
      | succ j => exact hgo j (Nat.lt_of_succ_lt_succ hj)
    rwa [Nat.add_assoc, Nat.add_comm 1 i]
  · rintro ⟨hp, hrest⟩ i hi hgo
    cases i with
    | zero => exact hp
    | succ i =>
      have hi' := hrest (hgo 0 (Nat.succ_pos i)) i (Nat.lt_of_succ_lt_succ hi) fun j hj =>
        hgo (j + 1) (Nat.succ_lt_succ hj)
      rwa [Nat.add_assoc, Nat.add_comm 1 i] at hi'

theorem within_byte : (byte mem p).Within S ↔ S p := within_deref

/-- A read of a byte, and what is made of it. -/
theorem stays_byte {α : Type} {f : BitVec 8 → Reads α} :
    (byte mem p >>= f).Stays S ↔ S p ∧ (f (mem p)).Stays S := by
  rw [stays_bind_of (a := mem p) rfl, within_byte]

/-! ### `strnlen` -/

/-- The number that `strnlen` returns. -/
def length (mem : Nat → BitVec 8) : (p n : Nat) → Nat
  | _, 0 => 0
  | p, n + 1 => if mem p = 0 then 0 else length mem (p + 1) n + 1

theorem length_le (mem : Nat → BitVec 8) (p n : Nat) : length mem p n ≤ n := by
  induction n generalizing p with
  | zero => exact Nat.le_refl 0
  | succ n ih =>
    rw [length]
    split
    · exact Nat.zero_le _
    · exact Nat.succ_le_succ (ih (p + 1))

/-- The characters before the end are no NUL, and the end is one if it is not the bound. -/
theorem length_spec (mem : Nat → BitVec 8) (p n : Nat) :
    (∀ i, i < length mem p n → mem (p + i) ≠ 0) ∧
      (length mem p n < n → mem (p + length mem p n) = 0) := by
  induction n generalizing p with
  | zero => exact ⟨fun i hi => absurd hi (Nat.not_lt_zero i), fun h => absurd h (Nat.lt_irrefl 0)⟩
  | succ n ih =>
    obtain ⟨hbefore, hend⟩ := ih (p + 1)
    rw [length]
    split
    · next h0 => exact ⟨fun i hi => absurd hi (Nat.not_lt_zero i), fun _ => h0⟩
    · next h0 =>
      refine ⟨fun i hi => ?_, fun hlt => ?_⟩
      · cases i with
        | zero => exact h0
        | succ i =>
          have hi' := hbefore i (Nat.lt_of_succ_lt_succ hi)
          rwa [Nat.add_assoc, Nat.add_comm 1 i] at hi'
      · have hz := hend (Nat.lt_of_succ_lt_succ hlt)
        rwa [Nat.add_assoc, Nat.add_comm 1] at hz

theorem strnlen_result : (strnlen mem p n).result = some (length mem p n) := by
  induction n generalizing p with
  | zero => rfl
  | succ n ih =>
    rw [strnlen, length, result_bind (a := mem p) rfl]
    split
    · rfl
    · rw [result_bind ih]
      rfl

theorem strnlen_within : (strnlen mem p n).Within S ↔ UpTo S n (fun j => mem (p + j) = 0) p := by
  induction n generalizing p with
  | zero => exact iff_of_true (within_pure 0) upTo_zero
  | succ n ih =>
    have hshift : (fun j => mem (p + (j + 1)) = 0) = fun j => mem (p + 1 + j) = 0 := by
      funext j
      rw [Nat.add_assoc, Nat.add_comm 1 j]
    rw [strnlen, within_bind_of (a := mem p) fun _ => rfl, within_byte, upTo_succ, hshift, ← ih]
    refine and_congr_right fun _ => ?_
    split
    · next h0 => exact iff_of_true (within_pure 0) fun hne => absurd h0 hne
    · next h0 =>
      rw [within_bind_of fun _ => strnlen_result]
      exact ⟨fun h _ => h.1, fun h => ⟨h h0, within_pure _⟩⟩

/-- Up to a NUL is up to the number that `strnlen` returns. -/
theorem upTo_length : UpTo S n (fun j => mem (p + j) = 0) p ↔
    ∀ i, i < n → i ≤ length mem p n → S (p + i) := by
  obtain ⟨hbefore, hend⟩ := length_spec mem p n
  constructor
  · exact fun h i hi hle => h i hi fun j hj => hbefore j (Nat.lt_of_lt_of_le hj hle)
  · intro h i hi hgo
    refine h i hi (Nat.le_of_not_lt fun hlt => ?_)
    exact hgo _ hlt (hend (Nat.lt_trans hlt hi))

/-- A call of `strnlen`, and what is made of its result. -/
theorem stays_strnlen {α : Type} {f : Nat → Reads α} :
    (strnlen mem p n >>= f).Stays S ↔
      UpTo S n (fun j => mem (p + j) = 0) p ∧ (f (length mem p n)).Stays S := by
  rw [stays_bind_of strnlen_result, strnlen_within]

/-! ### Comparing -/

/-- The characters of `s` are those from `p` on. -/
def Holds (mem : Nat → BitVec 8) : (p : Nat) → Chars → Prop
  | _, [] => True
  | p, c :: s => mem p = c ∧ Holds mem (p + 1) s

instance decidableHolds (mem : Nat → BitVec 8) : (p : Nat) → (s : Chars) → Decidable (Holds mem p s)
  | _, [] => inferInstanceAs (Decidable True)
  | p, _ :: s => @instDecidableAnd _ _ _ (decidableHolds mem (p + 1) s)

/-- The index at which the characters from `p` on differ from `s`. -/
def Differs (mem : Nat → BitVec 8) (s : Chars) (p j : Nat) : Prop := some (mem (p + j)) ≠ s[j]?

theorem holds_iff {s : Chars} : Holds mem p s ↔ ∀ j, j < s.length → ¬ Differs mem s p j := by
  induction s generalizing p with
  | nil => exact iff_of_true trivial fun j hj => absurd hj (Nat.not_lt_zero j)
  | cons c s ih =>
    rw [Holds, ih]
    constructor
    · rintro ⟨h0, hrest⟩ j hj
      cases j with
      | zero =>
        rw [Differs]
        simp [h0]
      | succ j =>
        have hj' := hrest j (Nat.lt_of_succ_lt_succ hj)
        rw [Differs] at hj' ⊢
        rwa [Nat.add_comm j, ← Nat.add_assoc, Nat.add_comm 1 j, List.getElem?_cons_succ]
    · intro hall
      refine ⟨?_, fun j hj => ?_⟩
      · have h0 := hall 0 (Nat.succ_pos _)
        rw [Differs, not_not] at h0
        exact Option.some.inj h0
      · have hj' := hall (j + 1) (Nat.succ_lt_succ hj)
        rw [Differs] at hj' ⊢
        rwa [Nat.add_comm j, ← Nat.add_assoc, Nat.add_comm 1 j, List.getElem?_cons_succ] at hj'

theorem differs_succ {c : BitVec 8} {s : Chars} {j : Nat} :
    Differs mem (c :: s) p (j + 1) ↔ Differs mem s (p + 1) j := by
  rw [Differs, Differs, Nat.add_comm j, ← Nat.add_assoc, Nat.add_comm 1 j, List.getElem?_cons_succ]

theorem strncmp_result {s : Chars} : (strncmp mem p s).result = some (decide (Holds mem p s)) := by
  induction s generalizing p with
  | nil => rfl
  | cons c s ih =>
    rw [strncmp, result_bind (a := mem p) rfl]
    split
    · next h0 => rw [ih]; simp [Holds, h0]
    · next h0 => simp [Holds, h0]

theorem strncmp_within {s : Chars} :
    (strncmp mem p s).Within S ↔ UpTo S s.length (Differs mem s p) p := by
  induction s generalizing p with
  | nil => exact iff_of_true (within_pure true) upTo_zero
  | cons c s ih =>
    have hdiff : Differs mem (c :: s) p 0 ↔ ¬ mem p = c := by simp [Differs]
    rw [strncmp, within_bind_of (a := mem p) fun _ => rfl, within_byte, List.length_cons, upTo_succ,
      hdiff, not_not]
    simp only [differs_succ]
    refine and_congr_right fun _ => ?_
    split
    · next h0 => rw [ih]; simp [h0]
    · next h0 => exact iff_of_true (within_pure false) fun he => absurd he h0

/-- `strcmp` goes on to the NUL. -/
theorem strcmp_eq {s : Chars} : strcmp mem p s = strncmp mem p (s ++ [0]) := by
  induction s generalizing p with
  | nil =>
    rw [strcmp, List.nil_append, strncmp]
    congr 1
    funext d
    by_cases h0 : d = 0
    · rw [if_pos h0, h0]
      rfl
    · rw [if_neg h0, beq_eq_false_iff_ne.mpr h0]
  | cons c s ih =>
    rw [strcmp, List.cons_append, strncmp]
    simp only [ih]

theorem strcmp_result {s : Chars} :
    (strcmp mem p s).result = some (decide (Holds mem p (s ++ [0]))) := by
  rw [strcmp_eq, strncmp_result]

/-- A call of `strcmp`, and what is made of its result. -/
theorem stays_strcmp {α : Type} {s : Chars} {f : Bool → Reads α} :
    (strcmp mem p s >>= f).Stays S ↔ UpTo S (s.length + 1) (Differs mem (s ++ [0]) p) p ∧
      (f (decide (Holds mem p (s ++ [0])))).Stays S := by
  have hlen : (s ++ [0]).length = s.length + 1 := List.length_append
  rw [stays_bind_of strcmp_result, strcmp_eq, strncmp_within, hlen]

theorem stays_strncmp {s : Chars} :
    (strncmp mem p s).Stays S ↔ UpTo S s.length (Differs mem s p) p := by
  rw [Reads.Stays, strncmp_result, strncmp_within]
  exact and_iff_right rfl

/-- One place holds one string. -/
theorem Holds.not {s t : Chars} (hs : Holds mem p s) {i : Nat} (hi : i < s.length) (hi' : i < t.length)
    (hne : s[i]? ≠ t[i]?) : ¬ Holds mem p t := by
  intro ht
  have hsi := holds_iff.mp hs i hi
  have hti := holds_iff.mp ht i hi'
  rw [Differs, not_not] at hsi hti
  exact hne (hsi.symm.trans hti)

/-- Where `s` stands, comparing with a string that differs from `s` reads no more than comparing with
`s`. -/
theorem Holds.upTo {s t : Chars} (hs : Holds mem p s) (hin : UpTo S s.length (Differs mem s p) p) {i : Nat}
    (hi : i < s.length) (hne : s[i]? ≠ t[i]?) : UpTo S n (Differs mem t p) p := by
  intro j _ hgo
  have hji : j ≤ i := by
    by_contra hij
    have hti := hgo i (Nat.lt_of_not_le hij)
    have hsi := holds_iff.mp hs i hi
    rw [Differs, not_not] at hsi hti
    exact hne (hsi.symm.trans hti)
  have hj : j < s.length := Nat.lt_of_le_of_lt hji hi
  exact hin j hj fun k hk => holds_iff.mp hs k (Nat.lt_trans hk hj)

/-- Comparing with `s` and its NUL goes no further than the first NUL. -/
theorem upTo_of_nul {s : Chars} {e : Nat} (hs : 0 ∉ s) (hn : n ≤ s.length + 1) (hp : p ≤ e)
    (hnul : mem e = 0) (hin : ∀ a, p ≤ a → a ≤ e → S a) : UpTo S n (Differs mem (s ++ [0]) p) p := by
  intro i hi hgo
  refine hin (p + i) (Nat.le_add_right p i) (Nat.le_of_not_lt fun hlt => ?_)
  obtain ⟨j, rfl⟩ := Nat.exists_eq_add_of_le hp
  have hj := hgo j (Nat.lt_of_add_lt_add_left hlt)
  have hshort : j < s.length := by omega
  rw [Differs, not_not, hnul, List.getElem?_append_left hshort] at hj
  exact hs (List.mem_of_getElem? hj.symm)

theorem memcmp_result {s : Chars} : (memcmp mem p s).result = some (decide (Holds mem p s)) := by
  induction s generalizing p with
  | nil => rfl
  | cons c s ih =>
    rw [memcmp, result_bind (a := mem p) rfl, result_bind ih]
    rw [result_pure, Option.some.injEq, Bool.eq_iff_iff, Bool.and_eq_true, beq_iff_eq,
      decide_eq_true_iff, decide_eq_true_iff, Holds]

theorem memcmp_within {s : Chars} : (memcmp mem p s).Within S ↔ ∀ i, i < s.length → S (p + i) := by
  induction s generalizing p with
  | nil => exact iff_of_true (within_pure true) fun i hi => absurd hi (Nat.not_lt_zero i)
  | cons c s ih =>
    rw [memcmp, within_bind_of (a := mem p) fun _ => rfl, within_byte,
      within_bind_of fun _ => memcmp_result, ih, List.length_cons, Nat.forall_lt_succ_left]
    refine and_congr_right fun _ => ?_
    rw [and_iff_left (within_pure _)]
    simp only [Nat.add_assoc, Nat.add_comm 1]

/-! ## Up to an address that stops -/

/-- The bytes from `p` on are in `S`, up to the first address that stops and that one included. -/
def Until (S : Nat → Prop) (stop : Nat → Prop) (p : Nat) : Prop :=
  ∀ q, p ≤ q → (∀ r, p ≤ r → r < q → ¬ stop r) → S q

theorem Until.mono {stop' : Nat → Prop} (h : Until S stop p) (hstop : ∀ q, stop q → stop' q) :
    Until S stop' p :=
  fun q hq hgo => h q hq fun r hr hrq hs => hgo r hr hrq (hstop r hs)

theorem until_self (h : Until S stop p) : S p :=
  h p (Nat.le_refl p) fun _ hr hrp => absurd hrp (Nat.not_lt.mpr hr)

theorem until_of_stop (hp : stop p) : Until S stop p ↔ S p := by
  constructor
  · exact until_self
  · intro hS q hq hgo
    rcases Nat.eq_or_lt_of_le hq with rfl | hlt
    · exact hS
    · exact absurd hp (hgo p (Nat.le_refl p) hlt)

/-- Past a part in which nothing stops. -/
theorem until_add {m : Nat} (hgo : ∀ r, p ≤ r → r < p + m → ¬ stop r) :
    Until S stop p ↔ (∀ i, i < m → S (p + i)) ∧ Until S stop (p + m) := by
  constructor
  · intro h
    constructor
    · exact fun i hi => h (p + i) (Nat.le_add_right p i) fun r hr hri => hgo r hr (by omega)
    · intro q hq hrest
      refine h q (by omega) fun r hr hrq => ?_
      rcases Nat.lt_or_ge r (p + m) with hlt | hge
      · exact hgo r hr hlt
      · exact hrest r hge hrq
  · rintro ⟨hfirst, hrest⟩ q hq hq'
    rcases Nat.lt_or_ge q (p + m) with hlt | hge
    · have hS := hfirst (q - p) (by omega)
      rwa [Nat.add_sub_cancel' hq] at hS
    · exact hrest q hge fun r hr hrq => hq' r (by omega) hrq

theorem until_succ (hp : ¬ stop p) : Until S stop p ↔ S p ∧ Until S stop (p + 1) := by
  have hone (r : Nat) (hr : p ≤ r) (hrp : r < p + 1) : ¬ stop r :=
    Nat.le_antisymm (Nat.le_of_lt_succ hrp) hr ▸ hp
  rw [until_add hone]
  refine and_congr_left fun _ => ⟨fun h => h 0 Nat.one_pos, fun h i hi => ?_⟩
  rw [Nat.lt_one_iff.mp hi]
  exact h

/-- Comparing with a string in which nothing stops. -/
theorem Until.upTo {s : Chars} (h : Until S stop p) (hs : ∀ j, ¬ Differs mem s p j → ¬ stop (p + j)) :
    UpTo S n (Differs mem s p) p := by
  intro i _ hgo
  refine h (p + i) (Nat.le_add_right p i) fun r hr hri => ?_
  obtain ⟨j, rfl⟩ := Nat.exists_eq_add_of_le hr
  exact hs j (hgo j (Nat.lt_of_add_lt_add_left hri))

end

end CString
