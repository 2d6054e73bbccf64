import HyperCore.Riscv64.FdtScan

/-!
# `riscv_features_init`

It goes over the host's device tree with the token loop of `find_bootargs` and looks at three properties:
`timebase-frequency`, the ISA string and the list of ISA extensions. The loops over the characters of an
ISA string have no bound, so they are given the number of rounds that they may take.

The pointers to strings are never null here, and their null checks are left out. A sum of `int`s that
overflows has no result.
-/

namespace HyperCore.Riscv64.FdtScan

open FlatTree ReadLog Relation CString

/-! ## The code -/

section

variable (mem : Nat → BitVec 8)

/-- `'_'` -/
def underscore : BitVec 8 := 95

/-- `slen == needle_len && !memcmp(s, needle, needle_len)` -/
def isNeedle (needle : CString.Chars) (s slen : Nat) : Reads Bool :=
  if slen = needle.length then memcmp mem s needle else pure false

/-- The loop of `stringlist_contains` from the offset `off` on. -/
def stringlistContains (list len : Nat) (needle : CString.Chars) (off : Nat) : Reads Bool :=
  if off < len then do
    let slen ← CString.strnlen mem (list + off) (len - off)
    let same ← isNeedle mem needle (list + off) slen
    if same then pure true
    else if 2 ^ 31 ≤ off + slen + 1 then stuck
    else stringlistContains list len needle (off + slen + 1)
  else pure false
termination_by len - off

/-- The loop of `isa_single_letter_has`. -/
def letterFrom (ext : BitVec 8) : (rounds p : Nat) → Reads Bool
  | 0, _ => stuck
  | rounds + 1, p => do
    let c ← byte mem p
    if c = 0 ∨ c = underscore then pure false
    else if c = ext then pure true
    else letterFrom ext rounds (p + 1)

def isaSingleLetterHas (rounds isa : Nat) (ext : BitVec 8) : Reads Bool := do
  let rv ← (strncmp mem isa (chars "rv32")).or (strncmp mem isa (chars "rv64"))
  letterFrom mem ext rounds (if rv then isa + 4 else isa)

/-- `p == isa || p[-1] == '_'` -/
def wordBegins (isa p : Nat) : Reads Bool :=
  if p = isa then pure true
  else do
    let c ← byte mem (p - 1)
    pure (c == underscore)

/-- `p[word_len] == '\0' || p[word_len] == '_'` -/
def wordEnds (word : CString.Chars) (p : Nat) : Reads Bool := do
  let c ← byte mem (p + word.length)
  pure (c == 0 || c == underscore)

/-- The loop of `isa_has_word`. -/
def wordFrom (isa : Nat) (word : CString.Chars) : (rounds p : Nat) → Reads Bool
  | 0, _ => stuck
  | rounds + 1, p => do
    let c ← byte mem p
    if c = 0 then pure false
    else do
      let found ← (wordBegins mem isa p).and ((strncmp mem p word).and (wordEnds mem word p))
      if found then pure true else wordFrom isa word rounds (p + 1)

def isaHasWord (rounds isa : Nat) (word : CString.Chars) : Reads Bool := wordFrom mem isa word rounds isa

/-- The variables of the module. -/
structure Features where
  gHasSvvptc : Bool := false
  gHasFpu : Bool := false
  gHasVector : Bool := false
  gTimebaseFrequency : BitVec 32 := 10000000

def parseIsaString (rounds isa : Nat) (g : Features) : Reads Features := do
  let svvptc ← isaHasWord mem rounds isa (chars "svvptc")
  -- the letters f, d and v
  let fpu ← (isaSingleLetterHas mem rounds isa 102).or (isaSingleLetterHas mem rounds isa 100)
  let vector ← isaSingleLetterHas mem rounds isa 118
  pure
    { g with
      gHasSvvptc := g.gHasSvvptc || svvptc
      gHasFpu := g.gHasFpu || fpu
      gHasVector := g.gHasVector || vector }

/-- `stringlist_contains` -/
def contains (exts len : Nat) (needle : String) : Reads Bool :=
  stringlistContains mem exts len (chars needle) 0

/-- `len` is the `int` that a length from `2 ^ 31` on makes negative. -/
def parseIsaExtensions (exts len : Nat) (g : Features) : Reads Features :=
  if len = 0 ∨ 2 ^ 31 ≤ len then pure g
  else do
    let svvptc ← contains mem exts len "svvptc"
    let fpu ← (contains mem exts len "f").or (contains mem exts len "d")
    let vector ← (contains mem exts len "v").or ((contains mem exts len "zve64d").or
      ((contains mem exts len "zve64f").or (contains mem exts len "zve64x")))
    pure
      { g with
        gHasSvvptc := g.gHasSvvptc || svvptc
        gHasFpu := g.gHasFpu || fpu
        gHasVector := g.gHasVector || vector }

/-- What `riscv_features_init` does with a property. -/
def onFeature (rounds : Nat) (g : Features) (name value len : Nat) : Reads (Features × Bool) := do
  let timebase ← strcmp mem name (chars "timebase-frequency")
  if timebase && decide (4 ≤ len) then do
    let v ← be32At mem value
    pure ({ g with gTimebaseFrequency := v }, false)
  else do
    let isa ← strcmp mem name (chars "riscv,isa")
    if isa then do
      let g ← parseIsaString mem rounds value g
      pure (g, false)
    else do
      let exts ← strcmp mem name (chars "riscv,isa-extensions")
      if exts then do
        let g ← parseIsaExtensions mem value len g
        pure (g, false)
      else pure (g, false)

def riscvFeaturesInit (rounds : Nat) (g : Features) (fdt : Nat) : Reads Features :=
  scanBlob mem (onFeature mem rounds) g fdt

end

/-! ## The loops over an ISA string -/

section

variable {S : Nat → Prop} {mem : Nat → BitVec 8} {isa p rounds : Nat} {word : CString.Chars}

/-- The word stands at `k`: at the start of the string or behind a `_`, and in front of a NUL or a `_`. -/
def WordAt (mem : Nat → BitVec 8) (isa : Nat) (word : CString.Chars) (k : Nat) : Prop :=
  (k = isa ∨ mem (k - 1) = underscore) ∧ Holds mem k word ∧
    (mem (k + word.length) = 0 ∨ mem (k + word.length) = underscore)

instance (k : Nat) : Decidable (WordAt mem isa word k) :=
  inferInstanceAs (Decidable (_ ∧ _ ∧ _))

/-- The string ends at `r`, or the word does that stands in it. -/
def IsaStop (mem : Nat → BitVec 8) (isa : Nat) (word : CString.Chars) (r : Nat) : Prop :=
  mem r = 0 ∨ ∃ k, isa ≤ k ∧ k + word.length = r ∧ WordAt mem isa word k

theorem wordBegins_result :
    (wordBegins mem isa p).result = some (decide (p = isa ∨ mem (p - 1) = underscore)) := by
  unfold wordBegins
  split
  · next h =>
    rw [decide_eq_true (.inl h)]
    rfl
  · next h =>
    rw [result_bind (a := mem (p - 1)) rfl, result_pure, Option.some.injEq, Bool.eq_iff_iff, beq_iff_eq,
      decide_eq_true_iff, or_iff_right h]

theorem wordEnds_result : (wordEnds mem word p).result =
    some (decide (mem (p + word.length) = 0 ∨ mem (p + word.length) = underscore)) := by
  unfold wordEnds
  rw [result_bind (a := mem (p + word.length)) rfl, result_pure, Option.some.injEq, Bool.eq_iff_iff,
    Bool.or_eq_true, beq_iff_eq, beq_iff_eq, decide_eq_true_iff]

/-- The test of `isa_has_word` at `p`. -/
theorem wordTest_result :
    ((wordBegins mem isa p).and ((strncmp mem p word).and (wordEnds mem word p))).result =
      some (decide (WordAt mem isa word p)) := by
  rw [result_and wordBegins_result (result_and strncmp_result wordEnds_result), ← Bool.decide_and,
    ← Bool.decide_and]
  rfl

/-- Characters of the word do not stop the loop at a place that no word before it reaches. -/
theorem not_isaStop {j : Nat} (hno : ∀ k, isa ≤ k → k < p → ¬ WordAt mem isa word k) (hword : 0 ∉ word)
    (hj : ¬ Differs mem word p j) : ¬ IsaStop mem isa word (p + j) := by
  rw [Differs, not_not] at hj
  obtain ⟨hlt, hchar⟩ := List.getElem?_eq_some_iff.mp hj.symm
  rintro (h0 | ⟨k, hk, hkj, hat⟩)
  · exact hword (h0 ▸ hchar ▸ List.getElem_mem hlt)
  · exact hno k hk (by omega) hat

/-- What the test reads is read by the loop too. -/
theorem wordTest_stays (hprev : p ≠ isa → S (p - 1))
    (hno : ∀ k, isa ≤ k → k < p → ¬ WordAt mem isa word k) (hword : 0 ∉ word)
    (h : Until S (IsaStop mem isa word) p) :
    ((wordBegins mem isa p).and ((strncmp mem p word).and (wordEnds mem word p))).Stays S := by
  refine stays_and.mpr ⟨?_, fun _ => stays_and.mpr ⟨?_, fun hsame => ?_⟩⟩
  · unfold wordBegins
    split
    · exact stays_pure true
    · next hp => exact stays_byte.mpr ⟨hprev hp, stays_pure _⟩
  · exact stays_strncmp.mpr (h.upTo fun j => not_isaStop hno hword)
  · rw [strncmp_result, Option.some.injEq, decide_eq_true_iff, holds_iff] at hsame
    refine stays_byte.mpr ⟨h _ (Nat.le_add_right p _) fun r hr hrq => ?_, stays_pure _⟩
    obtain ⟨j, rfl⟩ := Nat.exists_eq_add_of_le hr
    exact not_isaStop hno hword (hsame j (Nat.lt_of_add_lt_add_left hrq))

/-- At a word the test reads all that the loop reads. -/
theorem until_of_wordTest (hp : isa ≤ p) (hno : ∀ k, isa ≤ k → k < p → ¬ WordAt mem isa word k)
    (hword : 0 ∉ word) (hat : WordAt mem isa word p)
    (h : ((wordBegins mem isa p).and ((strncmp mem p word).and (wordEnds mem word p))).Stays S) :
    Until S (IsaStop mem isa word) p := by
  have hall := holds_iff.mp hat.2.1
  have hsame := (stays_and.mp h).2 (by rw [wordBegins_result, decide_eq_true hat.1])
  have hend := (stays_and.mp hsame).2 (by rw [strncmp_result, decide_eq_true hat.2.1])
  have hchars := stays_strncmp.mp (stays_and.mp hsame).1
  have hgo (r : Nat) (hr : p ≤ r) (hrq : r < p + word.length) : ¬ IsaStop mem isa word r := by
    obtain ⟨j, rfl⟩ := Nat.exists_eq_add_of_le hr
    exact not_isaStop hno hword (hall j (Nat.lt_of_add_lt_add_left hrq))
  rw [until_add hgo, until_of_stop (.inr ⟨p, hp, rfl, hat⟩)]
  exact ⟨fun i hi => hchars i hi fun j hj => hall j (Nat.lt_trans hj hi), (stays_byte.mp hend).1⟩

theorem wordFrom_stays (hR : ∀ a, S a → a < p + rounds) (hp : isa ≤ p) (hprev : p ≠ isa → S (p - 1))
    (hno : ∀ k, isa ≤ k → k < p → ¬ WordAt mem isa word k) (hword : 0 ∉ word) (hne : word ≠ []) :
    (wordFrom mem isa word rounds p).Stays S ↔ Until S (IsaStop mem isa word) p := by
  induction rounds generalizing p with
  | zero => exact iff_of_false not_stays_stuck fun h => absurd (hR p (until_self h)) (Nat.lt_irrefl p)
  | succ rounds ih =>
    rw [wordFrom, stays_byte]
    by_cases h0 : mem p = 0
    · rw [if_pos h0, until_of_stop (.inl h0), and_iff_left (stays_pure false)]
    · rw [if_neg h0, stays_bind, wordTest_result]
      simp only [Option.some.injEq, forall_eq', decide_eq_true_eq]
      by_cases hat : WordAt mem isa word p
      · rw [if_pos hat, and_iff_left (stays_pure true)]
        exact ⟨fun h => until_of_wordTest hp hno hword hat h.2,
          fun h => ⟨until_self h, wordTest_stays hprev hno hword h⟩⟩
      · have hpos := List.length_pos_of_ne_nil hne
        have hstep : ¬ IsaStop mem isa word p := by
          rintro (hz | ⟨k, hk, hkp, hwk⟩)
          · exact h0 hz
          · exact hno k hk (by omega) hwk
        have hno' (k : Nat) (hk : isa ≤ k) (hkp : k < p + 1) : ¬ WordAt mem isa word k := by
          rcases Nat.lt_succ_iff_lt_or_eq.mp hkp with hlt | rfl
          · exact hno k hk hlt
          · exact hat
        have hR' (a : Nat) (ha : S a) : a < p + 1 + rounds := by
          rw [Nat.add_right_comm]
          exact hR a ha
        have hrest (hS : S p) := ih hR' (Nat.le_succ_of_le hp) (fun _ => hS) hno'
        rw [if_neg hat]
        constructor
        · exact fun h => (until_succ hstep).mpr ⟨h.1, (hrest h.1).mp h.2.2⟩
        · intro h
          have hS := until_self h
          exact ⟨hS, wordTest_stays hprev hno hword h, (hrest hS).mpr ((until_succ hstep).mp h).2⟩

/-! ### A single letter -/

/-- The NUL or `_` that ends the letters. -/
def LettersStop (mem : Nat → BitVec 8) (r : Nat) : Prop := mem r = 0 ∨ mem r = underscore

theorem letterFrom_stays (hR : ∀ a, S a → a < p + rounds) (ext : BitVec 8)
    (h : Until S (LettersStop mem) p) : (letterFrom mem ext rounds p).Stays S := by
  induction rounds generalizing p with
  | zero => exact absurd (hR p (until_self h)) (Nat.lt_irrefl p)
  | succ rounds ih =>
    rw [letterFrom, stays_byte]
    refine ⟨until_self h, ?_⟩
    split
    · exact stays_pure false
    · next hgo =>
      split
      · exact stays_pure true
      · refine ih (fun a ha => ?_) ((until_succ hgo).mp h).2
        rw [Nat.add_right_comm]
        exact hR a ha

theorem isaSingleLetterHas_stays (hR : ∀ a, S a → a < isa + rounds) (ext : BitVec 8)
    (h : Until S (LettersStop mem) isa) : (isaSingleLetterHas mem rounds isa ext).Stays S := by
  -- the characters of a prefix are letters
  have hgo {s : CString.Chars} (hs : ∀ c ∈ s, c ≠ 0 ∧ c ≠ underscore) (j : Nat)
      (hj : ¬ Differs mem s isa j) : ¬ LettersStop mem (isa + j) := by
    rw [Differs, not_not] at hj
    have hc := hs _ (List.mem_of_getElem? hj.symm)
    exact not_or_intro hc.1 hc.2
  have h32 : ∀ c ∈ chars "rv32", c ≠ 0 ∧ c ≠ underscore := by decide
  have h64 : ∀ c ∈ chars "rv64", c ≠ 0 ∧ c ≠ underscore := by decide
  have hskip {s : CString.Chars} (hs : ∀ c ∈ s, c ≠ 0 ∧ c ≠ underscore) (hlen : s.length = 4)
      (hat : Holds mem isa s) : Until S (LettersStop mem) (isa + 4) := by
    refine ((until_add fun r hr hrq => ?_).mp h).2
    obtain ⟨j, rfl⟩ := Nat.exists_eq_add_of_le hr
    exact hgo hs j (holds_iff.mp hat j (by omega))
  unfold isaSingleLetterHas
  rw [stays_bind, result_or strncmp_result strncmp_result]
  refine ⟨stays_or.mpr ⟨stays_strncmp.mpr (h.upTo (hgo h32)), fun _ =>
    stays_strncmp.mpr (h.upTo (hgo h64))⟩, fun rv hrv => ?_⟩
  rw [Option.some.injEq, Bool.eq_iff_iff, Bool.or_eq_true, decide_eq_true_iff, decide_eq_true_iff] at hrv
  split
  · next htrue =>
    refine letterFrom_stays (fun a ha => Nat.lt_of_lt_of_le (hR a ha) (by omega)) ext ?_
    rcases hrv.mpr htrue with hat | hat
    · exact hskip h32 rfl hat
    · exact hskip h64 rfl hat
  · exact letterFrom_stays hR ext h

/-! ### The whole -/

/-- An ISA string is in `S` up to its NUL, or up to the end of the word `svvptc` in it. -/
def IsaInside (S : Nat → Prop) (mem : Nat → BitVec 8) (isa : Nat) : Prop :=
  Until S (IsaStop mem isa (chars "svvptc")) isa

theorem parseIsaString_stays (hR : ∀ a, S a → a < isa + rounds) (g : Features) :
    (parseIsaString mem rounds isa g).Stays S ↔ IsaInside S mem isa := by
  have hword : (isaHasWord mem rounds isa (chars "svvptc")).Stays S ↔ IsaInside S mem isa :=
    wordFrom_stays hR (Nat.le_refl isa) (fun hne => absurd rfl hne)
      (fun k hk hlt => absurd hlt (Nat.not_lt.mpr hk)) (by decide) (by decide)
  unfold parseIsaString
  rw [stays_bind, hword]
  refine and_iff_left_of_imp fun h svvptc _ => ?_
  have hletters (ext : BitVec 8) : (isaSingleLetterHas mem rounds isa ext).Stays S := by
    refine isaSingleLetterHas_stays hR ext (h.mono fun r hr => ?_)
    rcases hr with h0 | ⟨k, _, rfl, hat⟩
    · exact .inl h0
    · exact hat.2.2
  exact stays_bind.mpr ⟨stays_or.mpr ⟨hletters _, fun _ => hletters _⟩, fun fpu _ =>
    stays_bind.mpr ⟨hletters _, fun vector _ => stays_pure _⟩⟩

end

/-! ## The loop over a list of strings -/

section

variable {S : Nat → Prop} {mem : Nat → BitVec 8} {list len off : Nat} {needle : CString.Chars}

/-- The element at `k` of the list of `len` bytes is `needle`. The last element needs no NUL. -/
structure ElemAt (mem : Nat → BitVec 8) (list len : Nat) (needle : CString.Chars) (k : Nat) : Prop where
  inside : list ≤ k ∧ k + needle.length ≤ list + len
  begins : k = list ∨ mem (k - 1) = 0
  holds : Holds mem k needle
  ends : k + needle.length < list + len → mem (k + needle.length) = 0

/-- `needle` ends at `r`. -/
def ListStop (mem : Nat → BitVec 8) (list len : Nat) (needle : CString.Chars) (r : Nat) : Prop :=
  ∃ k, k + needle.length = r ∧ ElemAt mem list len needle k

/-- The sum of `int`s behind the last element does not overflow. -/
def SumFits (mem : Nat → BitVec 8) (list len : Nat) (needle : CString.Chars) : Prop :=
  len + 1 < 2 ^ 31 ∨ mem (list + len - 1) = 0 ∨ ∃ k, ElemAt mem list len needle k

/-- The list is in `S` as far as it is searched for `needle`. -/
def ListInside (S : Nat → Prop) (mem : Nat → BitVec 8) (list len : Nat) (needle : CString.Chars) : Prop :=
  Until (fun q => q < list + len → S q) (ListStop mem list len needle) list ∧ SumFits mem list len needle

/-- An offset of the loop: that of an element, or one past the end of a list without a NUL at its end. -/
def AtElem (mem : Nat → BitVec 8) (list len off : Nat) : Prop :=
  off = 0 ∨ off ≤ len ∧ mem (list + off - 1) = 0 ∨ off = len + 1 ∧ len + 1 < 2 ^ 31

/-- What the loop at the offset `off` compares is an element. -/
theorem elemAt_iff (hword : 0 ∉ needle) (hoff : AtElem mem list len off) (hlt : off < len) :
    ElemAt mem list len needle (list + off) ↔
      CString.length mem (list + off) (len - off) = needle.length ∧ Holds mem (list + off) needle := by
  obtain ⟨hbefore, hend⟩ := length_spec mem (list + off) (len - off)
  have hle := length_le mem (list + off) (len - off)
  constructor
  · intro h
    have hinside := h.inside.2
    refine ⟨Nat.le_antisymm (Nat.le_of_not_lt fun hgt => ?_) (Nat.le_of_not_lt fun hlt' => ?_), h.holds⟩
    · exact hbefore _ hgt (h.ends (by omega))
    · have hz := hend (by omega)
      have hchar := holds_iff.mp h.holds _ hlt'
      rw [Differs, not_not, hz] at hchar
      exact hword (List.mem_of_getElem? hchar.symm)
  · rintro ⟨hlen, hholds⟩
    refine ⟨⟨Nat.le_add_right list off, by omega⟩, ?_, hholds, fun hin => ?_⟩
    · rcases hoff with h0 | ⟨_, hz⟩ | ⟨hpast, _⟩
      · exact .inl (by rw [h0, Nat.add_zero])
      · exact .inr hz
      · omega
    · rw [← hlen]
      exact hend (by omega)

/-- No element begins behind the first place of another one. -/
theorem not_elemAt_inside {k : Nat} (hlo : list + off < k)
    (hhi : k ≤ list + off + CString.length mem (list + off) (len - off)) :
    ¬ ElemAt mem list len needle k := by
  intro h
  rcases h.begins with hk | hz
  · omega
  · obtain ⟨j, hj⟩ := Nat.exists_eq_add_of_le (Nat.le_sub_one_of_lt hlo)
    rw [hj] at hz
    exact (length_spec mem (list + off) (len - off)).1 j (by omega) hz

theorem isNeedle_result {s slen : Nat} :
    (isNeedle mem needle s slen).result = some (decide (slen = needle.length ∧ Holds mem s needle)) := by
  unfold isNeedle
  split
  · next hlen =>
    rw [memcmp_result]
    simp only [hlen, true_and]
  · next hlen => simp only [hlen, false_and, decide_false, result_pure]

/-- The comparison reads no more than `strnlen`. -/
theorem isNeedle_within
    (h : UpTo S (len - off) (fun j => mem (list + off + j) = 0) (list + off)) :
    (isNeedle mem needle (list + off) (CString.length mem (list + off) (len - off))).Within S := by
  have hle := length_le mem (list + off) (len - off)
  unfold isNeedle
  split
  · next hlen =>
    refine memcmp_within.mpr fun i hi => upTo_length.mp h i (by omega) ?_
    rw [hlen]
    exact Nat.le_of_lt hi
  · exact within_pure false

/-- An element further on begins behind the end of this one. -/
theorem not_elemAt_before (hno : ∀ k, k < list + off → ¬ ElemAt mem list len needle k)
    (hel : ¬ ElemAt mem list len needle (list + off)) (k : Nat)
    (hk : k < list + (off + CString.length mem (list + off) (len - off) + 1)) :
    ¬ ElemAt mem list len needle k := by
  rcases Nat.lt_trichotomy k (list + off) with hbefore | rfl | hafter
  · exact hno k hbefore
  · exact hel
  · exact not_elemAt_inside hafter (by omega)

/-- The next offset. -/
theorem atElem_next (hlt : off < len)
    (hmax : off + CString.length mem (list + off) (len - off) + 1 < 2 ^ 31) :
    AtElem mem list len (off + CString.length mem (list + off) (len - off) + 1) := by
  have hle := length_le mem (list + off) (len - off)
  rcases Nat.lt_or_eq_of_le hle with hin | hend
  · have hz := (length_spec mem (list + off) (len - off)).2 hin
    refine .inr (.inl ⟨by omega, ?_⟩)
    rwa [← Nat.add_assoc, Nat.add_sub_cancel, ← Nat.add_assoc]
  · exact .inr (.inr ⟨by omega, by omega⟩)

/-- The sum overflows behind a last element without a NUL, if `needle` was not found. -/
theorem not_sumFits (hlen : len < 2 ^ 31) (hlt : off < len)
    (hmax : 2 ^ 31 ≤ off + CString.length mem (list + off) (len - off) + 1)
    (hno : ∀ k, k < list + (off + CString.length mem (list + off) (len - off) + 1) →
      ¬ ElemAt mem list len needle k) : ¬ SumFits mem list len needle := by
  have hle := length_le mem (list + off) (len - off)
  rintro (hfits | hz | ⟨k, hk⟩)
  · omega
  · have hlast : list + len - 1 = list + off + (CString.length mem (list + off) (len - off) - 1) := by
      omega
    rw [hlast] at hz
    exact (length_spec mem (list + off) (len - off)).1 _ (by omega) hz
  · have hinside := hk.inside.2
    exact hno k (by omega) hk

/-- The loop from an element on, if `needle` is not before it. -/
theorem stringlistContains_stays (hneedle : 0 ∉ needle) (hne : needle ≠ []) (hlen : len < 2 ^ 31)
    (hoff : AtElem mem list len off) (hno : ∀ k, k < list + off → ¬ ElemAt mem list len needle k) :
    (stringlistContains mem list len needle off).Stays S ↔
      Until (fun q => q < list + len → S q) (ListStop mem list len needle) (list + off) ∧
        SumFits mem list len needle := by
  have hpos := List.length_pos_of_ne_nil hne
  induction hm : len - off using Nat.strong_induction_on generalizing off with
  | _ m ih =>
    rw [stringlistContains]
    by_cases hlt : off < len
    · rw [if_pos hlt, stays_strnlen, stays_bind_of isNeedle_result]
      have hiff := elemAt_iff hneedle hoff hlt
      have hle := length_le mem (list + off) (len - off)
      have hread : UpTo S (len - off) (fun j => mem (list + off + j) = 0) (list + off) ↔
          ∀ i, i < CString.length mem (list + off) (len - off) + 1 → list + off + i < list + len →
            S (list + off + i) := by
        rw [upTo_length]
        exact ⟨fun h i hi hin => h i (by omega) (by omega), fun h i hi hin => h i (by omega) (by omega)⟩
      by_cases hat : CString.length mem (list + off) (len - off) = needle.length ∧
        Holds mem (list + off) needle
      · have hel := hiff.mpr hat
        have hgo (r : Nat) (_ : list + off ≤ r) (hr : r < list + off + needle.length) :
            ¬ ListStop mem list len needle r := by
          rintro ⟨k, rfl, hk⟩
          exact hno k (by omega) hk
        rw [if_pos (decide_eq_true hat), and_iff_left (stays_pure true),
          and_iff_left_of_imp isNeedle_within, and_iff_left (.inr (.inr ⟨_, hel⟩)), hread,
          until_add hgo, until_of_stop ⟨_, rfl, hel⟩, hat.1, Nat.forall_lt_succ_right]
      · have hel : ¬ ElemAt mem list len needle (list + off) := fun h => hat (hiff.mp h)
        have hno' := not_elemAt_before hno hel
        have hgo (r : Nat) (_ : list + off ≤ r)
            (hr : r < list + off + (CString.length mem (list + off) (len - off) + 1)) :
            ¬ ListStop mem list len needle r := by
          rintro ⟨k, rfl, hk⟩
          exact hno' k (by omega) hk
        rw [if_neg (by rw [decide_eq_false hat]; exact Bool.false_ne_true), until_add hgo, and_assoc,
          ← hread]
        refine and_congr_right fun hup => ?_
        rw [and_iff_right (isNeedle_within hup)]
        by_cases hmax : 2 ^ 31 ≤ off + CString.length mem (list + off) (len - off) + 1
        · rw [if_pos hmax]
          exact iff_of_false not_stays_stuck fun h => not_sumFits hlen hlt hmax hno' h.2
        · rw [if_neg hmax]
          rw [Nat.add_assoc list off]
          exact ih _ (by omega) (atElem_next hlt (Nat.lt_of_not_le hmax)) hno' rfl
    · have hfits : SumFits mem list len needle := by
        rcases hoff with h0 | ⟨hle, hz⟩ | ⟨_, hmax⟩
        · exact .inl (by omega)
        · have hend : off = len := Nat.le_antisymm hle (Nat.le_of_not_lt hlt)
          rw [hend] at hz
          exact .inr (.inl hz)
        · exact .inl hmax
      rw [if_neg hlt]
      exact iff_of_true (stays_pure false) ⟨fun q hq _ hin => by omega, hfits⟩

/-- A search without success. -/
theorem stringlistContains_false (hneedle : 0 ∉ needle) (hne : needle ≠ [])
    (hoff : AtElem mem list len off) (hno : ∀ k, k < list + off → ¬ ElemAt mem list len needle k)
    (h : (stringlistContains mem list len needle off).result = some false) (k : Nat) :
    ¬ ElemAt mem list len needle k := by
  have hpos := List.length_pos_of_ne_nil hne
  induction hm : len - off using Nat.strong_induction_on generalizing off with
  | _ m ih =>
    rw [stringlistContains] at h
    by_cases hlt : off < len
    · rw [if_pos hlt, result_bind strnlen_result, result_bind isNeedle_result] at h
      by_cases hat : CString.length mem (list + off) (len - off) = needle.length ∧
        Holds mem (list + off) needle
      · rw [if_pos (decide_eq_true hat)] at h
        cases h
      · have hel : ¬ ElemAt mem list len needle (list + off) := fun hk =>
          hat ((elemAt_iff hneedle hoff hlt).mp hk)
        rw [if_neg (by rw [decide_eq_false hat]; exact Bool.false_ne_true)] at h
        by_cases hmax : 2 ^ 31 ≤ off + CString.length mem (list + off) (len - off) + 1
        · rw [if_pos hmax] at h
          cases h
        · rw [if_neg hmax] at h
          exact ih _ (by omega) (atElem_next hlt (Nat.lt_of_not_le hmax)) (not_elemAt_before hno hel) h rfl
    · intro hk
      have hinside := hk.inside.2
      exact hno k (by omega) hk

/-! ### The whole -/

theorem contains_stays (hlen : len < 2 ^ 31) {text : String} (hneedle : 0 ∉ chars text)
    (hne : chars text ≠ []) :
    (contains mem list len text).Stays S ↔ ListInside S mem list len (chars text) :=
  stringlistContains_stays hneedle hne hlen (.inl rfl)
    fun _ hk hat => absurd hk (Nat.not_lt.mpr hat.inside.1)

/-- A search without success has gone over the whole list, so any other may. -/
theorem listInside_of_false {text : String} (hneedle : 0 ∉ chars text) (hne : chars text ≠ [])
    (hin : ListInside S mem list len (chars text))
    (hfalse : (contains mem list len text).result = some false) (other : CString.Chars) :
    ListInside S mem list len other := by
  have hno := stringlistContains_false hneedle hne (.inl rfl)
    (fun _ hk hat => absurd hk (Nat.not_lt.mpr hat.inside.1)) hfalse
  obtain ⟨huntil, hfits⟩ := hin
  refine ⟨fun q hq _ => huntil q hq fun r _ _ hstop => ?_, ?_⟩
  · obtain ⟨k, _, hk⟩ := hstop
    exact hno k hk
  · rcases hfits with hfits | hz | ⟨k, hk⟩
    · exact .inl hfits
    · exact .inr (.inl hz)
    · exact absurd hk (hno k)

/-- The list of extensions is in `S` as far as it is searched for `svvptc`, `f` and `v`. -/
def ExtsInside (S : Nat → Prop) (mem : Nat → BitVec 8) (list len : Nat) : Prop :=
  ∀ text ∈ ["svvptc", "f", "v"], ListInside S mem list len (chars text)

theorem parseIsaExtensions_stays (g : Features) :
    (parseIsaExtensions mem list len g).Stays S ↔
      (0 < len → len < 2 ^ 31 → ExtsInside S mem list len) := by
  unfold parseIsaExtensions
  split
  · next hnone =>
    refine iff_of_true (stays_pure g) fun hpos hlen => ?_
    omega
  · next hsome =>
    rw [not_or] at hsome
    have hlen : len < 2 ^ 31 := Nat.lt_of_not_le hsome.2
    -- what a search without success leaves in reach of the others
    have hrest {text : String} (hneedle : 0 ∉ chars text) (hne : chars text ≠ [])
        (hin : ListInside S mem list len (chars text))
        (hfalse : (contains mem list len text).result = some false) {other : String}
        (hneedle' : 0 ∉ chars other) (hne' : chars other ≠ []) : (contains mem list len other).Stays S :=
      (contains_stays hlen hneedle' hne').mpr (listInside_of_false hneedle hne hin hfalse _)
    have hsvvptc : (contains mem list len "svvptc").Stays S ↔ ListInside S mem list len (chars "svvptc") :=
      contains_stays hlen (by decide) (by decide)
    have hfpu : ((contains mem list len "f").or (contains mem list len "d")).Stays S ↔
        ListInside S mem list len (chars "f") := by
      rw [stays_or, contains_stays hlen (by decide) (by decide)]
      exact and_iff_left_of_imp fun hin hfalse =>
        hrest (by decide) (by decide) hin hfalse (by decide) (by decide)
    have hvector : ((contains mem list len "v").or ((contains mem list len "zve64d").or
        ((contains mem list len "zve64f").or (contains mem list len "zve64x")))).Stays S ↔
        ListInside S mem list len (chars "v") := by
      rw [stays_or, contains_stays hlen (by decide) (by decide)]
      refine and_iff_left_of_imp fun hin hfalse =>
        stays_or.mpr ⟨?_, fun _ => stays_or.mpr ⟨?_, fun _ => ?_⟩⟩
      · exact hrest (by decide) (by decide) hin hfalse (by decide) (by decide)
      · exact hrest (by decide) (by decide) hin hfalse (by decide) (by decide)
      · exact hrest (by decide) (by decide) hin hfalse (by decide) (by decide)
    rw [imp_iff_right (Nat.pos_of_ne_zero hsome.1), imp_iff_right hlen, ExtsInside, List.forall_mem_cons,
      List.forall_mem_cons, List.forall_mem_singleton, ← hsvvptc, ← hfpu, ← hvector]
    exact stays_bind_const fun _ => stays_bind_const fun _ =>
      (stays_bind_const fun _ => iff_true_intro (stays_pure _)).trans (iff_of_eq (and_true _))

end

/-! ## `riscv_features_init` -/

section

variable {S : Nat → Prop} {mem : Nat → BitVec 8} {rounds : Nat}

/-- The names of the properties that are looked at. -/
def timebaseName : CString.Chars := chars "timebase-frequency" ++ [0]
def isaName : CString.Chars := chars "riscv,isa" ++ [0]
def extsName : CString.Chars := chars "riscv,isa-extensions" ++ [0]

/-- What is looked at of a property: its name, as far as it agrees with one of the three; a frequency; an
ISA string; a list of extensions. -/
structure FeatureInside (S : Nat → Prop) (mem : Nat → BitVec 8) (name value len : Nat) : Prop where
  compared : ∀ text ∈ [timebaseName, isaName, extsName], UpTo S text.length (Differs mem text name) name
  timebase : Holds mem name timebaseName → 4 ≤ len → Word S value
  isa : Holds mem name isaName → IsaInside S mem value
  exts : Holds mem name extsName → 0 < len → len < 2 ^ 31 → ExtsInside S mem value len

/-- A call of `strcmp` with one of them. -/
theorem stays_strcmpName {α : Type} {text : CString.Chars} {name : Nat} {f : Bool → Reads α} :
    (strcmp mem name text >>= f).Stays S ↔
      UpTo S (text ++ [0]).length (Differs mem (text ++ [0]) name) name ∧
        (f (decide (Holds mem name (text ++ [0])))).Stays S := by
  rw [stays_strcmp, List.length_append, List.length_singleton]

theorem onFeature_stays (hR : ∀ a, S a → a < rounds) (g : Features) (name value len : Nat) :
    (onFeature mem rounds g name value len).Stays S ↔ FeatureInside S mem name value len := by
  have hisa (g : Features) : (parseIsaString mem rounds value g >>= fun g => pure (g, false)).Stays S ↔
      IsaInside S mem value := by
    rw [stays_bind_const fun _ => iff_true_intro (stays_pure _), and_true]
    exact parseIsaString_stays (fun a ha => Nat.lt_of_lt_of_le (hR a ha) (Nat.le_add_left rounds value)) g
  have hexts (g : Features) : (parseIsaExtensions mem value len g >>= fun g => pure (g, false)).Stays S ↔
      (0 < len → len < 2 ^ 31 → ExtsInside S mem value len) := by
    rw [stays_bind_const fun _ => iff_true_intro (stays_pure _), and_true]
    exact parseIsaExtensions_stays g
  have hcompared : (∀ text ∈ [timebaseName, isaName, extsName],
      UpTo S text.length (Differs mem text name) name) ↔
      UpTo S timebaseName.length (Differs mem timebaseName name) name ∧
        UpTo S isaName.length (Differs mem isaName name) name ∧
          UpTo S extsName.length (Differs mem extsName name) name := by
    rw [List.forall_mem_cons, List.forall_mem_cons, List.forall_mem_singleton]
  -- a name is that of one property at most
  have hrest {s t : CString.Chars} {i : Nat} (hi : i < s.length) (hi' : i < t.length)
      (hne : s[i]? ≠ t[i]?)
      (hs : Holds mem name s) (hin : UpTo S s.length (Differs mem s name) name) :
      ¬ Holds mem name t ∧ UpTo S t.length (Differs mem t name) name :=
    ⟨hs.not hi hi' hne, hs.upTo hin hi hne⟩
  unfold onFeature
  rw [stays_strcmpName]
  change UpTo S timebaseName.length (Differs mem timebaseName name) name ∧ Reads.Stays
    (if (decide (Holds mem name timebaseName) && decide (4 ≤ len)) = true then _ else _) S ↔ _
  split
  · next hfirst =>
    rw [Bool.and_eq_true, decide_eq_true_iff, decide_eq_true_iff] at hfirst
    obtain ⟨htimebase, hlen⟩ := hfirst
    rw [stays_be32At, and_iff_left (stays_pure _)]
    constructor
    · rintro ⟨hin, hword⟩
      obtain ⟨hnoIsa, hinIsa⟩ :=
        hrest (t := isaName) (i := 0) (by decide) (by decide) (by decide) htimebase hin
      obtain ⟨hnoExts, hinExts⟩ :=
        hrest (t := extsName) (i := 0) (by decide) (by decide) (by decide) htimebase hin
      exact ⟨hcompared.mpr ⟨hin, hinIsa, hinExts⟩, fun _ _ => hword, fun h => absurd h hnoIsa,
        fun h => absurd h hnoExts⟩
    · exact fun h => ⟨(hcompared.mp h.compared).1, h.timebase htimebase hlen⟩
  · next hfirst =>
    rw [stays_strcmpName]
    change UpTo S timebaseName.length (Differs mem timebaseName name) name ∧
      UpTo S isaName.length (Differs mem isaName name) name ∧ Reads.Stays
        (if decide (Holds mem name isaName) = true then _ else _) S ↔ _
    have hno : Holds mem name timebaseName → ¬ 4 ≤ len := fun h hlen =>
      hfirst (Bool.and_eq_true_iff.mpr ⟨decide_eq_true h, decide_eq_true hlen⟩)
    split
    · next hsecond =>
      have hname : Holds mem name isaName := decide_eq_true_iff.mp hsecond
      rw [hisa]
      constructor
      · rintro ⟨hinTimebase, hin, hvalue⟩
        obtain ⟨hnoExts, hinExts⟩ :=
          hrest (t := extsName) (i := 9) (by decide) (by decide) (by decide) hname hin
        exact ⟨hcompared.mpr ⟨hinTimebase, hin, hinExts⟩, fun h hlen => absurd hlen (hno h),
          fun _ => hvalue, fun h => absurd h hnoExts⟩
      · intro h
        obtain ⟨hinTimebase, hin, -⟩ := hcompared.mp h.compared
        exact ⟨hinTimebase, hin, h.isa hname⟩
    · next hsecond =>
      have hname : ¬ Holds mem name isaName := fun h => hsecond (decide_eq_true h)
      rw [stays_strcmpName]
      change UpTo S timebaseName.length (Differs mem timebaseName name) name ∧
        UpTo S isaName.length (Differs mem isaName name) name ∧
          UpTo S extsName.length (Differs mem extsName name) name ∧ Reads.Stays
            (if decide (Holds mem name extsName) = true then _ else _) S ↔ _
      have hlast : Reads.Stays (if decide (Holds mem name extsName) = true then
          parseIsaExtensions mem value len g >>= fun g => pure (g, false) else pure (g, false)) S ↔
          (Holds mem name extsName → 0 < len → len < 2 ^ 31 → ExtsInside S mem value len) := by
        split
        · next hthird => rw [hexts, imp_iff_right (decide_eq_true_iff.mp hthird)]
        · next hthird => exact iff_of_true (stays_pure _) fun h => absurd (decide_eq_true h) hthird
      constructor
      · rintro ⟨hinTimebase, hinIsa, hinExts, hvalue⟩
        exact ⟨hcompared.mpr ⟨hinTimebase, hinIsa, hinExts⟩, fun h hlen => absurd hlen (hno h),
          fun h => absurd h hname, hlast.mp hvalue⟩
      · intro h
        obtain ⟨hinTimebase, hinIsa, hinExts⟩ := hcompared.mp h.compared
        exact ⟨hinTimebase, hinIsa, hinExts, hlast.mpr h.exts⟩

/-- It looks at every property. -/
theorem onFeature_stops (g : Features) (name value len : Nat) (r : Features × Bool)
    (hr : (onFeature mem rounds g name value len).result = some r) : r.2 = true ↔ False := by
  have hpair {m : Reads Features} (h : (m >>= fun g => pure (g, false)).result = some r) :
      r.2 = false := by
    obtain ⟨g', _, hg'⟩ := bind_result_eq_some h
    rw [← Option.some.inj hg']
  have hfalse : r.2 = false := by
    unfold onFeature at hr
    rw [result_bind strcmp_result] at hr
    split at hr
    · obtain ⟨v, _, hv⟩ := bind_result_eq_some hr
      rw [← Option.some.inj hv]
    · rw [result_bind strcmp_result] at hr
      split at hr
      · exact hpair hr
      · rw [result_bind strcmp_result] at hr
        split at hr
        · exact hpair hr
        · rw [← Option.some.inj hr]
  rw [hfalse]
  exact iff_of_false Bool.false_ne_true not_false

end

/-! ### More rounds -/

section

variable {mem : Nat → BitVec 8} {rounds more : Nat}

theorem letterFrom_extends (ext : BitVec 8) (h : rounds ≤ more) (p : Nat) :
    (letterFrom mem ext rounds p).Extends (letterFrom mem ext more p) := by
  induction rounds generalizing more p with
  | zero => exact extends_stuck _
  | succ rounds ih =>
    obtain ⟨more, rfl⟩ := Nat.exists_eq_add_of_lt h
    rw [letterFrom, letterFrom]
    refine Reads.Extends.bind (.refl _) fun c => ?_
    exact (Reads.Extends.refl _).ite ((Reads.Extends.refl _).ite (ih (by omega) (p + 1)))

theorem isaSingleLetterHas_extends (ext : BitVec 8) (h : rounds ≤ more) (isa : Nat) :
    (isaSingleLetterHas mem rounds isa ext).Extends (isaSingleLetterHas mem more isa ext) :=
  Reads.Extends.bind (.refl _) fun _ => letterFrom_extends ext h _

theorem wordFrom_extends (isa : Nat) (word : CString.Chars) (h : rounds ≤ more) (p : Nat) :
    (wordFrom mem isa word rounds p).Extends (wordFrom mem isa word more p) := by
  induction rounds generalizing more p with
  | zero => exact extends_stuck _
  | succ rounds ih =>
    obtain ⟨more, rfl⟩ := Nat.exists_eq_add_of_lt h
    rw [wordFrom, wordFrom]
    refine Reads.Extends.bind (.refl _) fun c => (Reads.Extends.refl _).ite ?_
    refine Reads.Extends.bind (.refl _) fun found => ?_
    exact (Reads.Extends.refl _).ite (ih (by omega) (p + 1))

theorem parseIsaString_extends (h : rounds ≤ more) (isa : Nat) (g : Features) :
    (parseIsaString mem rounds isa g).Extends (parseIsaString mem more isa g) := by
  have hletter (ext : BitVec 8) : (isaSingleLetterHas mem rounds isa ext).Extends
      (isaSingleLetterHas mem more isa ext) := isaSingleLetterHas_extends ext h isa
  refine Reads.Extends.bind (wordFrom_extends isa _ h isa) fun svvptc => ?_
  refine Reads.Extends.bind ((hletter _).or (hletter _)) fun fpu => ?_
  exact (hletter _).bind fun vector => .refl _

theorem onFeature_extends (h : rounds ≤ more) (g : Features) (name value len : Nat) :
    (onFeature mem rounds g name value len).Extends (onFeature mem more g name value len) := by
  refine Reads.Extends.bind (.refl _) fun timebase => (Reads.Extends.refl _).ite ?_
  refine Reads.Extends.bind (.refl _) fun isa => Reads.Extends.ite ?_ (.refl _)
  exact (parseIsaString_extends h value g).bind fun g => .refl _

end

end HyperCore.Riscv64.FdtScan
