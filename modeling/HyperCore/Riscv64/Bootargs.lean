import HyperCore.Lib.Tokens

/-!
# `guest_dtb.c`: numbers in the boot arguments

`parse_bootarg_u64` looks for `key=` at the start of a token and reads a number behind it, up to a
space or the end of the string. The grammar of a number is `Denotes`. The parser accepts more: an
empty numeral in front of a space counts as 0, and a number of `2 ^ 64` or more is taken modulo
`2 ^ 64`. A key with a space in it can match across tokens.

A string is the list of its bytes before the NUL; a pointer into it is what is left of the list.
-/

namespace HyperCore.Riscv64

open Tokens

abbrev Chars := List (BitVec 8)

def space : BitVec 8 := 0x20
def equalSign : BitVec 8 := 0x3d

/-! ## The code -/

/-- The digit of `parse_num` for a character; `none` is its `return false`. -/
def parseDigit (base : Nat) (c : BitVec 8) : Option Nat :=
  let digit :=
    if 0x30 ≤ c ∧ c ≤ 0x39 then some (c.toNat - 0x30)
    else if base = 16 ∧ 0x61 ≤ c ∧ c ≤ 0x66 then some (c.toNat - 0x61 + 10)
    else if base = 16 ∧ 0x41 ≤ c ∧ c ≤ 0x46 then some (c.toNat - 0x41 + 10)
    else none
  digit.filter fun d => d < base

/-- The `while` loop of `parse_num`, which accumulates in a `u64`. -/
def parseDigits (base : Nat) : Chars → BitVec 64 → Option (BitVec 64)
  | [], v => some v
  | c :: s, v =>
    if c = space then some v
    else do
      let digit ← parseDigit base c
      parseDigits base s (v * BitVec.ofNat 64 base + BitVec.ofNat 64 digit)

/-- The base, and the string behind its prefix. -/
def splitBase (s : Chars) : Nat × Chars :=
  if s[0]? = some 0x30 ∧ (s[1]? = some 0x78 ∨ s[1]? = some 0x58) then (16, s.drop 2) else (10, s)

/-- `parse_num`: the result, and `*value` after it. -/
def parseNum (s : Chars) (value : BitVec 64) : Bool × BitVec 64 :=
  let (base, s) := splitBase s
  if s = [] then (false, value)
  else match parseDigits base s 0 with
    | some v => (true, v)
    | none => (false, value)

/-- `strchr`; `none` is NULL. -/
def strchr (s : Chars) (c : BitVec 8) : Option Chars :=
  match s.dropWhile fun x => x != c with
  | [] => none
  | found => some found

/-- `while (*p == ' ') p++;` -/
def skipSpaces (p : Chars) : Chars := p.dropWhile fun c => c == space

/-- `!strncmp(p, key, key_len)` for the length of `key`. -/
def startsWith (p key : Chars) : Bool := key.isPrefixOf p

theorem strchr_length {p p' : Chars} (h : strchr (skipSpaces p) space = some p') :
    p'.length < p.length := by
  have hskip : (skipSpaces p).length ≤ p.length := (List.dropWhile_suffix _).length_le
  have hp' : p' = (skipSpaces p).dropWhile fun x => x != space := by
    unfold strchr at h
    split at h
    · cases h
    · exact (Option.some.inj h).symm
  have hhead := List.head?_dropWhile_not (fun c => c == space) p
  cases hq : skipSpaces p with
  | nil =>
    rw [hq] at h
    cases h
  | cons c q =>
    -- the string goes on with a character that is no space, and `strchr` passes it
    have hc : c ≠ space := by
      unfold skipSpaces at hq
      rw [hq] at hhead
      exact beq_eq_false_iff_ne.mp hhead
    have htail : (q.dropWhile fun x => x != space).length ≤ q.length :=
      (List.dropWhile_suffix _).length_le
    rw [hq, List.length_cons] at hskip
    rw [hp', hq, List.dropWhile_cons_of_pos (by simpa using hc)]
    omega

/-- The `while` loop of `parse_bootarg_u64`. -/
def bootargLoop (key : Chars) (value : BitVec 64) (p : Chars) : Bool × BitVec 64 :=
  if p = [] then (false, value)
  else
    let q := skipSpaces p
    if startsWith q key ∧ q[key.length]? = some equalSign then
      parseNum (q.drop (key.length + 1)) value
    else
      match _hnext : strchr q space with
      | none => (false, value)
      | some p' => bootargLoop key value p'
termination_by p.length
decreasing_by exact strchr_length _hnext

/-- `parse_bootarg_u64`: the result, and `*value` after it. -/
def parseBootargU64 (bootargs key : Chars) (value : BitVec 64) : Bool × BitVec 64 :=
  bootargLoop key value bootargs

/-! ## The grammar -/

/-- The characters of a literal. -/
def bytes (text : String) : Chars := text.toList.map fun c => BitVec.ofNat 8 c.toNat

/-- The value of a digit, in lower or upper case. -/
def digitValue (base : Nat) (c : BitVec 8) : Option Nat :=
  some (min ((bytes "0123456789abcdef").idxOf c) ((bytes "0123456789ABCDEF").idxOf c)) |>.filter
    fun d => d < base

/-- A non-empty numeral and its value. -/
def Numeral (base : Nat) (n : Chars) (v : Nat) : Prop :=
  n ≠ [] ∧ ∃ ds, n.mapM (digitValue base) = some ds ∧ v = Nat.ofDigits base ds.reverse

/-- `0x` or `0X` -/
def HexPrefix (p : Chars) : Prop := p = bytes "0x" ∨ p = bytes "0X"

/-- A decimal numeral, or a hexadecimal one behind its prefix. -/
def Denotes (n : Chars) (v : Nat) : Prop :=
  Numeral 10 n v ∨ ∃ p h, HexPrefix p ∧ n = p ++ h ∧ Numeral 16 h v

/-- A numeral without a digit. -/
def EmptyNumeral (n : Chars) : Prop := n = [] ∨ HexPrefix n

/-- The first token `key=N` has a number `N` below `2 ^ 64`, and its value is `v`. -/
def Grants (bootargs key : Chars) (v : Nat) : Prop :=
  ∃ t, (bootargs.splitOnP (· == space)).find? (fun t => (key ++ [equalSign]).isPrefixOf t) = some t ∧
    Denotes (t.drop (key.length + 1)) v ∧ v < 2 ^ 64

/-- The parser succeeds with `v` iff the grammar grants `v`, and leaves `*value` alone otherwise. -/
def ParsesGrammar (bootargs key : Chars) : Prop :=
  ∀ value, (∀ v, Grants bootargs key v →
      parseBootargU64 bootargs key value = (true, BitVec.ofNat 64 v)) ∧
    ((∀ v, ¬ Grants bootargs key v) → parseBootargU64 bootargs key value = (false, value))

/-- What stands behind `key=` is no empty numeral in front of a space; and if it is a number, then
one below `2 ^ 64`, behind a key without a space. -/
def ReadsExactly (key r : Chars) : Prop :=
  ¬ (EmptyNumeral (token space r) ∧ token space r ≠ r) ∧
    ∀ v, Denotes (token space r) v → v < 2 ^ 64 ∧ space ∉ key

/-! ## Numbers -/

section

variable {base acc v : Nat} {c : BitVec 8} {r s n : Chars} {value : BitVec 64}

theorem parseDigit_dec : ∀ c : BitVec 8, parseDigit 10 c = digitValue 10 c := by
  have hall : ∀ i : Fin 256, parseDigit 10 (BitVec.ofFin i) = digitValue 10 (BitVec.ofFin i) := by
    decide +kernel
  exact fun c => hall c.toFin

theorem parseDigit_hex : ∀ c : BitVec 8, parseDigit 16 c = digitValue 16 c := by
  have hall : ∀ i : Fin 256, parseDigit 16 (BitVec.ofFin i) = digitValue 16 (BitVec.ofFin i) := by
    decide +kernel
  exact fun c => hall c.toFin

/-- The loop reads a token, modulo `2 ^ 64`. -/
theorem parseDigits_eq (hdigit : ∀ c, parseDigit base c = digitValue base c) (s : Chars)
    (acc : Nat) : parseDigits base s (BitVec.ofNat 64 acc) =
      ((token space s).mapM (digitValue base)).map fun ds =>
        BitVec.ofNat 64 (acc * base ^ ds.length + Nat.ofDigits base ds.reverse) := by
  induction s generalizing acc with
  | nil => simp [parseDigits, token]
  | cons c s ih =>
    by_cases hc : c = space
    · subst hc
      rw [parseDigits, if_pos rfl, token_cons_sep]
      simp
    · rw [parseDigits, if_neg hc, token_cons hc, hdigit, List.mapM_cons]
      cases hd : digitValue base c with
      | none => rfl
      | some d =>
        have hstep : BitVec.ofNat 64 acc * BitVec.ofNat 64 base + BitVec.ofNat 64 d =
            BitVec.ofNat 64 (acc * base + d) := by
          rw [BitVec.ofNat_add, BitVec.ofNat_mul]
        simp only [Option.bind_eq_bind, Option.bind_some, hstep, ih]
        cases (token space s).mapM (digitValue base) with
        | none => rfl
        | some ds =>
          simp only [Option.map_some, Option.bind_some, Option.pure_def, List.length_cons,
            List.reverse_cons, Nat.ofDigits_append, List.length_reverse, Nat.ofDigits_singleton]
          congr 2
          ring

/-- `parse_num` behind the prefix. -/
def parseBody (base : Nat) (s : Chars) (value : BitVec 64) : Bool × BitVec 64 :=
  if s = [] then (false, value)
  else match parseDigits base s 0 with
    | some v => (true, v)
    | none => (false, value)

/-- The loop from its start value on. -/
theorem parseDigits_zero (hdigit : ∀ c, parseDigit base c = digitValue base c) (s : Chars) :
    parseDigits base s 0 = ((token space s).mapM (digitValue base)).map fun ds =>
      BitVec.ofNat 64 (Nat.ofDigits base ds.reverse) := by
  have hparse := parseDigits_eq hdigit s 0
  simp only [Nat.zero_mul, Nat.zero_add] at hparse
  exact hparse

theorem parseBody_numeral (hdigit : ∀ c, parseDigit base c = digitValue base c)
    (h : Numeral base (token space s) v) :
    parseBody base s value = (true, BitVec.ofNat 64 v) := by
  obtain ⟨hne, ds, hds, rfl⟩ := h
  have hs : s ≠ [] := by
    rintro rfl
    exact hne rfl
  unfold parseBody
  rw [if_neg hs, parseDigits_zero hdigit, hds]
  rfl

theorem parseBody_empty (hdigit : ∀ c, parseDigit base c = digitValue base c)
    (h : token space s = []) (hs : s ≠ []) : parseBody base s value = (true, 0) := by
  unfold parseBody
  rw [if_neg hs, parseDigits_zero hdigit, h]
  rfl

theorem parseBody_malformed (hdigit : ∀ c, parseDigit base c = digitValue base c)
    (hne : token space s ≠ []) (h : ∀ v, ¬ Numeral base (token space s) v) :
    parseBody base s value = (false, value) := by
  have hnone : (token space s).mapM (digitValue base) = none := by
    refine Option.eq_none_iff_forall_ne_some.mpr fun ds hds => ?_
    exact h _ ⟨hne, ds, hds, rfl⟩
  unfold parseBody
  split
  · rfl
  · rw [parseDigits_zero hdigit, hnone]
    rfl

/-- No numeral has two values. -/
theorem Numeral.unique {v' : Nat} (h : Numeral base n v) (h' : Numeral base n v') : v = v' := by
  obtain ⟨-, ds, hds, rfl⟩ := h
  obtain ⟨-, ds', hds', rfl⟩ := h'
  rw [Option.some.inj (hds.symm.trans hds')]

/-- Behind a prefix no decimal numeral stands. -/
theorem not_numeral_hex {p h : Chars} (hp : HexPrefix p) : ¬ Numeral 10 (p ++ h) v := by
  rintro ⟨-, ds, hds, -⟩
  rcases hp with rfl | rfl
  · simp [bytes, digitValue, List.mapM_cons, Option.filter] at hds
  · simp [bytes, digitValue, List.mapM_cons, Option.filter] at hds

theorem HexPrefix.length {p : Chars} (hp : HexPrefix p) : p.length = 2 := by
  rcases hp with rfl | rfl <;> rfl

theorem HexPrefix.space_not_mem {p : Chars} (hp : HexPrefix p) : space ∉ p := by
  rcases hp with rfl | rfl <;> decide

theorem splitBase_hex {p : Chars} (hp : HexPrefix p) (s : Chars) : splitBase (p ++ s) = (16, s) := by
  rcases hp with rfl | rfl <;> rfl

theorem splitBase_dec (h : ∀ p s, HexPrefix p → r ≠ p ++ s) : splitBase r = (10, r) := by
  unfold splitBase
  refine if_neg fun ⟨hzero, hx⟩ => ?_
  cases r with
  | nil => cases hzero
  | cons c r =>
    cases r with
    | nil => rcases hx with hx | hx <;> cases hx
    | cons x r =>
      cases hzero
      rcases hx with hx | hx
      · cases hx
        exact h _ r (.inl rfl) rfl
      · cases hx
        exact h _ r (.inr rfl) rfl

theorem parseNum_eq (r : Chars) (value : BitVec 64) :
    parseNum r value = parseBody (splitBase r).1 (splitBase r).2 value := rfl

/-- Behind a prefix the grammar has the hexadecimal numerals. -/
theorem denotes_hex {p : Chars} (hp : HexPrefix p) (s : Chars) :
    Denotes (token space (p ++ s)) v ↔ Numeral 16 (token space s) v := by
  rw [token_append hp.space_not_mem]
  constructor
  · rintro (hdec | ⟨p', h, hp', heq, hnum⟩)
    · exact absurd hdec (not_numeral_hex hp)
    · have hlen : p.length = p'.length := hp.length.trans hp'.length.symm
      obtain ⟨-, hrest⟩ := List.append_inj heq hlen
      rw [hrest]
      exact hnum
  · exact fun hnum => .inr ⟨p, _, hp, rfl, hnum⟩

/-- And the decimal ones elsewhere. -/
theorem denotes_dec (h : ∀ p s, HexPrefix p → r ≠ p ++ s) :
    Denotes (token space r) v ↔ Numeral 10 (token space r) v := by
  refine or_iff_left ?_
  rintro ⟨p, n, hp, heq, -⟩
  have hprefix : p <+: token space r := ⟨n, heq.symm⟩
  obtain ⟨s, hs⟩ := (prefix_token hp.space_not_mem r).mp hprefix
  exact h p s hp hs.symm

theorem emptyNumeral_hex {p : Chars} (hp : HexPrefix p) (s : Chars) :
    EmptyNumeral (token space (p ++ s)) ↔ token space s = [] := by
  have hlen := hp.length
  rw [token_append hp.space_not_mem]
  constructor
  · rintro (hnil | hhex)
    · rw [(List.append_eq_nil_iff.mp hnil).1] at hlen
      cases hlen
    · have htwo := hhex.length
      rw [List.length_append, hlen] at htwo
      exact List.length_eq_zero_iff.mp (by omega)
  · intro hnil
    rw [hnil, List.append_nil]
    exact .inr hp

theorem emptyNumeral_dec (h : ∀ p s, HexPrefix p → r ≠ p ++ s) :
    EmptyNumeral (token space r) ↔ token space r = [] := by
  refine or_iff_left fun hhex => ?_
  obtain ⟨s, hs⟩ := (prefix_token hhex.space_not_mem r).mp (List.prefix_refl _)
  exact h _ s hhex hs.symm

/-- The parser on what the grammar denotes, on an empty numeral and on anything else. -/
theorem parseNum_spec (r : Chars) (value : BitVec 64) :
    (∀ v, Denotes (token space r) v → parseNum r value = (true, BitVec.ofNat 64 v)) ∧
    (EmptyNumeral (token space r) → token space r ≠ r → parseNum r value = (true, 0)) ∧
    (EmptyNumeral (token space r) → token space r = r → parseNum r value = (false, value)) ∧
    (¬ EmptyNumeral (token space r) → (∀ v, ¬ Denotes (token space r) v) →
      parseNum r value = (false, value)) := by
  by_cases hhex : ∃ p s, HexPrefix p ∧ r = p ++ s
  · obtain ⟨p, s, hp, rfl⟩ := hhex
    rw [parseNum_eq, splitBase_hex hp, emptyNumeral_hex hp, token_append hp.space_not_mem,
      ne_eq, List.append_cancel_left_eq, ← token_append hp.space_not_mem]
    simp only [denotes_hex hp]
    refine ⟨fun v => parseBody_numeral parseDigit_hex, fun hnil hne => ?_, fun hnil heq => ?_,
      parseBody_malformed parseDigit_hex⟩
    · refine parseBody_empty parseDigit_hex hnil ?_
      rintro rfl
      exact hne rfl
    · rw [← heq, hnil]
      rfl
  · have hdec (p s : Chars) (hp : HexPrefix p) : r ≠ p ++ s := fun he => hhex ⟨p, s, hp, he⟩
    rw [parseNum_eq, splitBase_dec hdec, emptyNumeral_dec hdec]
    simp only [denotes_dec hdec]
    refine ⟨fun v => parseBody_numeral parseDigit_dec, fun hnil hne => ?_, fun hnil heq => ?_,
      parseBody_malformed parseDigit_dec⟩
    · refine parseBody_empty parseDigit_dec hnil ?_
      rintro rfl
      exact hne rfl
    · rw [← heq, hnil]
      rfl

theorem Denotes.unique {n : Chars} {v v' : Nat} (h : Denotes n v) (h' : Denotes n v') : v = v' := by
  rcases h with h | ⟨p, t, hp, rfl, h⟩
  · rcases h' with h' | ⟨p, t, hp, rfl, -⟩
    · exact h.unique h'
    · exact absurd h (not_numeral_hex hp)
  · rcases h' with h' | ⟨p', t', hp', heq, h'⟩
    · exact absurd h' (not_numeral_hex hp)
    · obtain ⟨-, hrest⟩ := List.append_inj heq (hp.length.trans hp'.length.symm)
      rw [hrest] at h
      exact h.unique h'

theorem EmptyNumeral.not_denotes {n : Chars} (h : EmptyNumeral n) : ¬ Denotes n v := by
  have hnil (base : Nat) : ¬ Numeral base [] v := fun hnum => hnum.1 rfl
  rcases h with rfl | hp
  · rintro (hdec | ⟨p, t, hp, heq, -⟩)
    · exact hnil 10 hdec
    · have hlen := hp.length
      rw [(List.append_eq_nil_iff.mp heq.symm).1] at hlen
      cases hlen
  · rintro (hdec | ⟨p', t, hp', heq, hnum⟩)
    · rw [← List.append_nil n] at hdec
      exact not_numeral_hex hp hdec
    · have hlen := congrArg List.length heq
      rw [List.length_append, hp.length, hp'.length] at hlen
      rw [List.length_eq_zero_iff.mp (by omega : t.length = 0)] at hnum
      exact hnil 16 hnum

end

/-! ## The token loop -/

section

variable {key bootargs r : Chars} {value : BitVec 64} {v : Nat}

theorem startsWith_iff (q key : Chars) :
    startsWith q key = true ∧ q[key.length]? = some equalSign ↔ key ++ [equalSign] <+: q := by
  unfold startsWith
  rw [List.isPrefixOf_iff_prefix]
  constructor
  · rintro ⟨⟨t, rfl⟩, heq⟩
    rw [List.getElem?_append_right (Nat.le_refl _), Nat.sub_self] at heq
    cases t with
    | nil => cases heq
    | cons c t =>
      cases heq
      exact ⟨t, by simp⟩
  · rintro ⟨t, rfl⟩
    refine ⟨⟨equalSign :: t, by simp⟩, ?_⟩
    simp

theorem skipSpaces_head (p : Chars) : ∀ c ∈ (skipSpaces p).head?, c ≠ space := by
  intro c hc
  have hhead := List.head?_dropWhile_not (fun c => c == space) p
  unfold skipSpaces at hc
  rw [Option.mem_def.mp hc] at hhead
  exact beq_eq_false_iff_ne.mp hhead

theorem strchr_eq (q : Chars) : strchr q space = none ∧ (q.dropWhile fun x => x != space) = [] ∨
    strchr q space = some (q.dropWhile fun x => x != space) := by
  unfold strchr
  split
  · next h => exact .inl ⟨rfl, h⟩
  · exact .inr rfl

/-- The loop reads the number behind the first key at the start of a token. -/
theorem bootargLoop_eq (key : Chars) (value : BitVec 64) (p : Chars) :
    (after space (key ++ [equalSign]) true p = none ∧ bootargLoop key value p = (false, value)) ∨
      ∃ r, after space (key ++ [equalSign]) true p = some r ∧
        bootargLoop key value p = parseNum r value := by
  have hne : key ++ [equalSign] ≠ [] := by simp
  have hskip (p : Chars) : after space (key ++ [equalSign]) true (skipSpaces p) =
      after space (key ++ [equalSign]) true p := after_skip p
  fun_induction bootargLoop key value p with
  | case1 => exact .inl ⟨rfl, rfl⟩
  | case2 p hp q hkey =>
    have hhit := after_hit hne (skipSpaces_head p) ((startsWith_iff q key).mp hkey)
    rw [hskip, List.length_append] at hhit
    exact .inr ⟨_, hhit, rfl⟩
  | case3 p hp q hkey hnext =>
    have hmiss := after_miss (skipSpaces_head p) (fun h => hkey ((startsWith_iff q key).mpr h))
    rcases strchr_eq q with ⟨-, hend⟩ | hsome
    · rw [hskip, hend] at hmiss
      exact .inl ⟨hmiss, rfl⟩
    · cases hnext.symm.trans hsome
  | case4 p hp q hkey p' hnext ih =>
    have hmiss := after_miss (skipSpaces_head p) (fun h => hkey ((startsWith_iff q key).mpr h))
    rcases strchr_eq q with ⟨hnone, -⟩ | hsome
    · cases hnone.symm.trans hnext
    · rw [hskip, ← Option.some.inj (hnext.symm.trans hsome)] at hmiss
      rw [hmiss]
      exact ih

/-- The grammar reads the token of the first key, which it knows only without a space. -/
theorem grants_iff (hr : after space (key ++ [equalSign]) true bootargs = some r) :
    Grants bootargs key v ↔ space ∉ key ∧ Denotes (token space r) v ∧ v < 2 ^ 64 := by
  have hne : key ++ [equalSign] ≠ [] := by simp
  unfold Grants
  by_cases hkey : space ∈ key
  · rw [find_none (List.mem_append_left _ hkey)]
    simp [hkey]
  · have hsep : space ∉ key ++ [equalSign] := by
      rw [List.mem_append, not_or]
      exact ⟨hkey, by decide⟩
    rw [find_token hsep hne, hr, Option.map_some]
    simp [hkey]

theorem not_grants (hr : after space (key ++ [equalSign]) true bootargs = none) :
    ¬ Grants bootargs key v := by
  rintro ⟨t, hfind, -⟩
  by_cases hkey : space ∈ key
  · rw [find_none (List.mem_append_left _ hkey)] at hfind
    cases hfind
  · have hsep : space ∉ key ++ [equalSign] := by
      rw [List.mem_append, not_or]
      exact ⟨hkey, by decide⟩
    rw [find_token hsep (by simp), hr] at hfind
    cases hfind

theorem reads_of_parses (hparse : ParsesGrammar bootargs key)
    (hr : after space (key ++ [equalSign]) true bootargs = some r) : ReadsExactly key r := by
  have hrun (value : BitVec 64) : bootargLoop key value bootargs = parseNum r value := by
    rcases bootargLoop_eq key value bootargs with ⟨hnone, -⟩ | ⟨r', hr', heq⟩
    · cases hnone.symm.trans hr
    · rw [heq, Option.some.inj (hr'.symm.trans hr)]
  obtain ⟨hnum, hempty, -, -⟩ := parseNum_spec r 0
  obtain ⟨-, hfail⟩ := hparse 0
  unfold parseBootargU64 at hfail
  rw [hrun] at hfail
  refine ⟨fun ⟨he, hspace⟩ => ?_, fun v hv => ?_⟩
  · have hno := hfail fun v hv => he.not_denotes ((grants_iff hr).mp hv).2.1
    cases hno.symm.trans (hempty he hspace)
  · -- a number that the grammar does not grant is read all the same
    by_contra hbad
    have hno := hfail fun v' hv' => by
      obtain ⟨hkey, hden, hlt⟩ := (grants_iff hr).mp hv'
      rw [hden.unique hv] at hlt
      exact hbad ⟨hlt, hkey⟩
    cases hno.symm.trans (hnum v hv)

theorem parses_of_reads
    (hexact : ∀ r, after space (key ++ [equalSign]) true bootargs = some r → ReadsExactly key r) :
    ParsesGrammar bootargs key := by
  intro value
  unfold parseBootargU64
  rcases bootargLoop_eq key value bootargs with ⟨hnone, heq⟩ | ⟨r, hr, heq⟩
  · rw [heq]
    exact ⟨fun v hv => absurd hv (not_grants hnone), fun _ => rfl⟩
  · rw [heq]
    obtain ⟨hnum, -, hend, hbad⟩ := parseNum_spec r value
    obtain ⟨hempty, hsmall⟩ := hexact r hr
    refine ⟨fun v hv => hnum v ((grants_iff hr).mp hv).2.1, fun hnone => ?_⟩
    have hden (v : Nat) : ¬ Denotes (token space r) v := fun hv =>
      hnone v ((grants_iff hr).mpr ⟨(hsmall v hv).2, hv, (hsmall v hv).1⟩)
    by_cases he : EmptyNumeral (token space r)
    · have hspace : token space r = r := by
        by_contra hne
        exact hempty ⟨he, hne⟩
      exact hend he hspace
    · exact hbad he hden

end

/-- The parser keeps to the grammar exactly where the text behind the first `key=` is no empty
numeral in front of a space, and no number of `2 ^ 64` or more or behind a key with a space. -/
theorem bootarg_exact (bootargs key : Chars) :
    ParsesGrammar bootargs key ↔
      ∀ r, after space (key ++ [equalSign]) true bootargs = some r → ReadsExactly key r :=
  ⟨fun hparse _ hr => reads_of_parses hparse hr, parses_of_reads⟩

/-- An empty number in front of a space and one of `2 ^ 64` are both read as 0. -/
theorem bootarg_fails :
    ¬ ParsesGrammar (bytes "guest_vcpus= quiet") (bytes "guest_vcpus") ∧
      ¬ ParsesGrammar (bytes "guest_vcpus=0x10000000000000000") (bytes "guest_vcpus") := by
  constructor
  · intro hparse
    have hr : after space (bytes "guest_vcpus" ++ [equalSign]) true (bytes "guest_vcpus= quiet") =
        some (bytes " quiet") := by decide
    exact (reads_of_parses hparse hr).1 ⟨.inl (by decide), by decide⟩
  · intro hparse
    have hr : after space (bytes "guest_vcpus" ++ [equalSign]) true
        (bytes "guest_vcpus=0x10000000000000000") = some (bytes "0x10000000000000000") := by decide
    have hnum : Numeral 16 (bytes "10000000000000000") (2 ^ 64) :=
      ⟨by decide, 1 :: List.replicate 16 0, by decide, by decide⟩
    have hbig := (reads_of_parses hparse hr).2 (2 ^ 64) (.inr ⟨_, _, .inl rfl, by decide, hnum⟩)
    exact absurd hbig.1 (Nat.lt_irrefl _)

end HyperCore.Riscv64
