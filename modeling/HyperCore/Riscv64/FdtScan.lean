import HyperCore.Lib.CString
import HyperCore.Riscv64.GuestDtb

/-!
# `find_bootargs` and its token loop, with a record of what is read

`find_bootargs` and `riscv_features_init` go over the structure block of the host's device tree with the
same loop, `scanTokens`; what they do with a property is a parameter. The loop checks neither the header
nor a length against the size of the blob. It stays in the blob exactly if every token that it reaches
does (`scanTokens_stays`).

Pointers are numbers that do not wrap.
-/

namespace HyperCore.Riscv64.FdtScan

open FlatTree ReadLog Relation
open CString (UpTo Differs Holds)

/-! ## The code -/

/-- `fdt32_to_cpu` and `be32` -/
def be32At (mem : Nat → BitVec 8) (p : Nat) : Reads (BitVec 32) :=
  ⟨[p, p + 1, p + 2, p + 3], some (readBe32 mem p)⟩

/-- The variables that the scanners make of the header. -/
structure Header where
  structp : Nat
  structEnd : Nat
  strings : Nat
  stringsSize : Nat

section

variable (mem : Nat → BitVec 8)

def readHeader (fdt : Nat) : Reads Header := do
  let offStruct ← be32At mem (fdt + 8)
  let sizeStruct ← be32At mem (fdt + 36)
  let offStrings ← be32At mem (fdt + 12)
  let sizeStrings ← be32At mem (fdt + 32)
  pure
    { structp := fdt + offStruct.toNat
      structEnd := fdt + offStruct.toNat + sizeStruct.toNat
      strings := fdt + offStrings.toNat
      stringsSize := sizeStrings.toNat }

theorem le_align4 (p : Nat) : p ≤ align4 p := by
  rw [align4]
  omega

/-- The loop over the tokens. `onProp` gets the addresses of a property's name and value and the value's
length, and tells whether the function returns. -/
def scanTokens {σ : Type} (onProp : σ → (name value len : Nat) → Reads (σ × Bool)) (h : Header) (st : σ)
    (structp : Nat) : Reads σ :=
  if structp + 4 ≤ h.structEnd then do
    let token ← be32At mem structp
    if token = fdtBeginNode then do
      let k ← CString.strnlen mem (structp + 4) (h.structEnd - (structp + 4))
      scanTokens onProp h st (align4 (structp + 4 + k + 1))
    else if token = fdtProp then
      if h.structEnd < structp + 12 then pure st
      else do
        let len ← be32At mem (structp + 4)
        let nameoff ← be32At mem (structp + 8)
        let next := align4 (structp + 12 + len.toNat)
        if h.stringsSize ≤ nameoff.toNat then scanTokens onProp h st next
        else do
          let (st, done) ← onProp st (h.strings + nameoff.toNat) (structp + 12) len.toNat
          if done then pure st else scanTokens onProp h st next
    else if token = fdtEnd then pure st
    else if token = fdtEndNode ∨ token = fdtNop then scanTokens onProp h st (structp + 4)
    else pure st
  else pure st
termination_by h.structEnd - structp
decreasing_by
  all_goals
    have hup (a : Nat) : a ≤ align4 a := le_align4 a
    grind

/-- The two functions up to their loop; `other` is what they return without one. -/
def scanBlob {σ : Type} (onProp : σ → (name value len : Nat) → Reads (σ × Bool)) (st : σ) (fdt : Nat) :
    Reads σ :=
  if fdt = 0 then pure st
  else do
    let magic ← be32At mem fdt
    if magic ≠ fdtMagic then pure st
    else do
      let h ← readHeader mem fdt
      scanTokens mem onProp h st h.structp

/-- What `find_bootargs` does with a property. -/
def onBootargs (found : Option Nat) (name value len : Nat) : Reads (Option Nat × Bool) := do
  let same ← CString.strcmp mem name bootargsName
  if same && decide (0 < len) then pure (some value, true) else pure (found, false)

/-- `find_bootargs` -/
def findBootargs (fdt : Nat) : Reads (Option Nat) := scanBlob mem (onBootargs mem) none fdt

end

/-! ## What the scan reaches -/

section

variable (S : Nat → Prop) (mem : Nat → BitVec 8) (h : Header)

/-- A word is in `S`. -/
def Word (p : Nat) : Prop := S p ∧ S (p + 1) ∧ S (p + 2) ∧ S (p + 3)

/-- The length in the property at `p`. -/
def propLen (p : Nat) : Nat := (readBe32 mem (p + 4)).toNat

/-- The offset of the name in the property at `p`. -/
def propNameoff (p : Nat) : Nat := (readBe32 mem (p + 8)).toNat

/-- The token at `p` is followed by the one at `q`. `stops` are the properties behind which there is no
next token. -/
def NextToken (stops : (name value len : Nat) → Prop) (p q : Nat) : Prop :=
  p + 4 ≤ h.structEnd ∧
    ((readBe32 mem p = fdtBeginNode ∧
        q = align4 (p + 4 + CString.length mem (p + 4) (h.structEnd - (p + 4)) + 1)) ∨
      (readBe32 mem p = fdtProp ∧ p + 12 ≤ h.structEnd ∧ q = align4 (p + 12 + propLen mem p) ∧
        (propNameoff mem p < h.stringsSize →
          ¬ stops (h.strings + propNameoff mem p) (p + 12) (propLen mem p))) ∨
      ((readBe32 mem p = fdtEndNode ∨ readBe32 mem p = fdtNop) ∧ q = p + 4))

/-- The scan reaches `p`. -/
def Reached (stops : (name value len : Nat) → Prop) (p : Nat) : Prop :=
  ReflTransGen (NextToken mem h stops) h.structp p

/-- What the scan looks at of the token at `p` is in `S`: its word; the name of a node, up to its NUL or
the end of the block; the two numbers of a property, and `inside` for its name and value. -/
def TokenInside (inside : (name value len : Nat) → Prop) (p : Nat) : Prop :=
  p + 4 ≤ h.structEnd → Word S p ∧
    (readBe32 mem p = fdtBeginNode →
      UpTo S (h.structEnd - (p + 4)) (fun j => mem (p + 4 + j) = 0) (p + 4)) ∧
    (readBe32 mem p = fdtProp → p + 12 ≤ h.structEnd → Word S (p + 4) ∧ Word S (p + 8) ∧
      (propNameoff mem p < h.stringsSize →
        inside (h.strings + propNameoff mem p) (p + 12) (propLen mem p)))

end

/-! ## The loop -/

section

variable {S : Nat → Prop} {mem : Nat → BitVec 8} {h : Header} {p : Nat} {σ : Type}
  {stops inside : (name value len : Nat) → Prop}
  {onProp : σ → (name value len : Nat) → Reads (σ × Bool)}

theorem be32At_within : (be32At mem p).Within S ↔ Word S p := by
  simp [be32At, Reads.Within, Word]

/-- A load of a word, and what is made of it. -/
theorem stays_be32At {α : Type} {f : BitVec 32 → Reads α} :
    (be32At mem p >>= f).Stays S ↔ Word S p ∧ (f (readBe32 mem p)).Stays S := by
  rw [stays_bind_of (a := readBe32 mem p) rfl, be32At_within]

/-- A property of every place that is reached. -/
theorem forall_reached {R : Nat → Nat → Prop} {C : Nat → Prop} :
    (∀ q, ReflTransGen R p q → C q) ↔ C p ∧ ∀ q, R p q → ∀ q', ReflTransGen R q q' → C q' := by
  constructor
  · exact fun hall => ⟨hall p .refl, fun q hq q' hq' => hall q' (.head hq hq')⟩
  · rintro ⟨h0, hrest⟩ q hq
    rcases ReflTransGen.cases_head hq with rfl | ⟨q₁, h1, h2⟩
    · exact h0
    · exact hrest q₁ h1 q h2

/-- What is done with a property, and the rest of the scan if it goes on. -/
theorem stays_onProp {C : Prop} {m : Reads (σ × Bool)} {stop : Prop} {next : σ → Reads σ}
    (hstop : ∀ r, m.result = some r → (r.2 = true ↔ stop)) (hnext : ∀ st, (next st).Stays S ↔ C) :
    (m >>= fun r => if r.2 then pure r.1 else next r.1).Stays S ↔ m.Stays S ∧ (¬ stop → C) := by
  rw [stays_bind]
  refine and_congr_right fun hm => ?_
  obtain ⟨r, hr⟩ := Option.isSome_iff_exists.mp hm.1
  constructor
  · intro hall hgo
    have hcont := hall r hr
    rw [if_neg fun hdone => hgo ((hstop r hr).mp hdone)] at hcont
    exact (hnext r.1).mp hcont
  · intro hgo r' hr'
    split
    · exact stays_pure r'.1
    · next hdone => exact (hnext r'.1).mpr (hgo fun hs => hdone ((hstop r' hr').mpr hs))

/-- The loop stays in `S` exactly if every token that it reaches does. -/
theorem scanTokens_stays
    (hinside : ∀ st name value len, (onProp st name value len).Stays S ↔ inside name value len)
    (hstops : ∀ st name value len r, (onProp st name value len).result = some r →
      (r.2 = true ↔ stops name value len)) (st : σ) (p : Nat) :
    (scanTokens mem onProp h st p).Stays S ↔
      ∀ q, ReflTransGen (NextToken mem h stops) p q → TokenInside S mem h inside q := by
  induction hm : h.structEnd - p using Nat.strong_induction_on generalizing p st with
  | _ m ih =>
    rw [forall_reached, scanTokens]
    split
    · next hin =>
      -- the rest of the scan, from the next token on
      have hrest {q : Nat} (hq : p + 4 ≤ q) (st : σ) : (scanTokens mem onProp h st q).Stays S ↔
          ∀ q', ReflTransGen (NextToken mem h stops) q q' → TokenInside S mem h inside q' :=
        ih (h.structEnd - q) (by omega) st q rfl
      rw [stays_be32At, TokenInside, imp_iff_right hin, and_assoc]
      refine and_congr_right fun _ => ?_
      split
      · next hbegin =>
        have hprop : readBe32 mem p ≠ fdtProp := by rw [hbegin]; decide
        have hnext (q : Nat) : NextToken mem h stops p q ↔
            q = align4 (p + 4 + CString.length mem (p + 4) (h.structEnd - (p + 4)) + 1) := by
          simp [NextToken, hin, hbegin, fdtBeginNode, fdtProp, fdtEndNode, fdtNop]
        have hle := le_align4 (p + 4 + CString.length mem (p + 4) (h.structEnd - (p + 4)) + 1)
        simp only [hnext, forall_eq]
        rw [CString.stays_strnlen, hrest (by omega), imp_iff_right hbegin,
          and_iff_left fun hp => absurd hp hprop]
      split
      · next hbegin hprop =>
        have hnext (q : Nat) : NextToken mem h stops p q ↔ p + 12 ≤ h.structEnd ∧
            q = align4 (p + 12 + propLen mem p) ∧ (propNameoff mem p < h.stringsSize →
              ¬ stops (h.strings + propNameoff mem p) (p + 12) (propLen mem p)) := by
          simp [NextToken, hin, hprop, fdtBeginNode, fdtProp, fdtEndNode, fdtNop]
        have hle : p + 4 ≤ align4 (p + 12 + propLen mem p) :=
          Nat.le_trans (by omega) (le_align4 (p + 12 + propLen mem p))
        rw [and_iff_right fun hb => absurd hb hbegin, imp_iff_right hprop]
        simp only [hnext]
        split
        · next hend => exact iff_of_true (stays_pure st) ⟨fun hp => by omega, fun q hq => by omega⟩
        · next hend =>
          have hfits : p + 12 ≤ h.structEnd := Nat.le_of_not_lt hend
          rw [imp_iff_right hfits, stays_be32At, stays_be32At, and_assoc, and_assoc]
          refine and_congr_right fun _ => and_congr_right fun _ => ?_
          simp only [hfits, true_and, and_imp, forall_eq]
          change (if h.stringsSize ≤ propNameoff mem p then _ else _ : Reads σ).Stays S ↔ _
          split
          · next hname =>
            have hno := Nat.not_lt.mpr hname
            rw [and_iff_right fun hlt => absurd hlt hno, imp_iff_right fun hlt => absurd hlt hno]
            exact hrest hle st
          · next hname =>
            have hlt := Nat.lt_of_not_le hname
            rw [imp_iff_right hlt, imp_iff_right hlt, ← hinside st]
            exact stays_onProp (hstops st _ _ _) fun st => hrest hle st
      · next hbegin hprop =>
        rw [and_iff_right ⟨fun hb => absurd hb hbegin, fun hp => absurd hp hprop⟩]
        have hnext (q : Nat) : NextToken mem h stops p q ↔
            q = p + 4 ∧ (readBe32 mem p = fdtEndNode ∨ readBe32 mem p = fdtNop) := by
          simp [NextToken, hin, hbegin, hprop, and_comm]
        simp only [hnext, and_imp, forall_eq]
        split
        · next hend =>
          have hskip : ¬ (readBe32 mem p = fdtEndNode ∨ readBe32 mem p = fdtNop) := by
            rw [hend]
            decide
          exact iff_of_true (stays_pure st) fun h => absurd h hskip
        · next hend =>
          split
          · next hskip => rw [imp_iff_right hskip, hrest (Nat.le_refl _)]
          · next hother => exact iff_of_true (stays_pure st) fun hskip => absurd hskip hother
    · next hout =>
      refine iff_of_true (stays_pure st) ⟨fun hin => absurd hin hout, fun q hq => absurd hq.1 hout⟩

/-- A scan that does more with a property. -/
theorem scanTokens_extends {onProp' : σ → (name value len : Nat) → Reads (σ × Bool)}
    (hprop : ∀ st name value len, (onProp st name value len).Extends (onProp' st name value len))
    (st : σ) (p : Nat) : (scanTokens mem onProp h st p).Extends (scanTokens mem onProp' h st p) := by
  induction hm : h.structEnd - p using Nat.strong_induction_on generalizing p st with
  | _ m ih =>
    rw [scanTokens.eq_def mem onProp h st p, scanTokens.eq_def mem onProp' h st p]
    by_cases hin : p + 4 ≤ h.structEnd
    · have hrest {q : Nat} (hq : p + 4 ≤ q) (st : σ) :
          (scanTokens mem onProp h st q).Extends (scanTokens mem onProp' h st q) :=
        ih (h.structEnd - q) (by omega) st q rfl
      have hup {q : Nat} (hq : p + 4 ≤ q) : p + 4 ≤ align4 q := Nat.le_trans hq (le_align4 q)
      rw [if_pos hin, if_pos hin]
      refine Reads.Extends.bind (.refl _) fun token => Reads.Extends.ite ?_ (Reads.Extends.ite ?_ ?_)
      · exact Reads.Extends.bind (.refl _) fun k => hrest (hup (by omega)) st
      · refine (Reads.Extends.refl _).ite (Reads.Extends.bind (.refl _) fun len => ?_)
        refine Reads.Extends.bind (.refl _) fun nameoff => ?_
        refine Reads.Extends.ite (hrest (hup (by omega)) st) ((hprop _ _ _ _).bind fun r => ?_)
        exact (Reads.Extends.refl _).ite (hrest (hup (by omega)) r.1)
      · exact (Reads.Extends.refl _).ite ((hrest (Nat.le_refl _) st).ite (.refl _))
    · rw [if_neg hin, if_neg hin]
      exact .refl _

/-! ## From the header on -/

/-- The header as the scanners read it. -/
def header (mem : Nat → BitVec 8) (fdt : Nat) : Header where
  structp := fdt + (readBe32 mem (fdt + 8)).toNat
  structEnd := fdt + (readBe32 mem (fdt + 8)).toNat + (readBe32 mem (fdt + 36)).toNat
  strings := fdt + (readBe32 mem (fdt + 12)).toNat
  stringsSize := (readBe32 mem (fdt + 32)).toNat

theorem stays_readHeader {α : Type} {fdt : Nat} {f : Header → Reads α} :
    (readHeader mem fdt >>= f).Stays S ↔ (Word S (fdt + 8) ∧ Word S (fdt + 36) ∧ Word S (fdt + 12) ∧
      Word S (fdt + 32)) ∧ (f (header mem fdt)).Stays S := by
  have hpure : (readHeader mem fdt).result = some (header mem fdt) := rfl
  rw [stays_bind_of hpure]
  refine and_congr_left fun _ => ?_
  unfold readHeader
  rw [within_bind_of (a := readBe32 mem (fdt + 8)) fun _ => rfl, be32At_within,
    within_bind_of (a := readBe32 mem (fdt + 36)) fun _ => rfl, be32At_within,
    within_bind_of (a := readBe32 mem (fdt + 12)) fun _ => rfl, be32At_within,
    within_bind_of (a := readBe32 mem (fdt + 32)) fun _ => rfl, be32At_within,
    and_iff_left (within_pure _)]

/-- A scanner stays in `S` exactly if the five words of the header and every token that it reaches do. -/
theorem scanBlob_stays {fdt : Nat}
    (hinside : ∀ st name value len, (onProp st name value len).Stays S ↔ inside name value len)
    (hstops : ∀ st name value len r, (onProp st name value len).result = some r →
      (r.2 = true ↔ stops name value len)) (st : σ) (hfdt : fdt ≠ 0)
    (hmagic : readBe32 mem fdt = fdtMagic) :
    (scanBlob mem onProp st fdt).Stays S ↔
      (Word S fdt ∧ Word S (fdt + 8) ∧ Word S (fdt + 36) ∧ Word S (fdt + 12) ∧ Word S (fdt + 32)) ∧
        ∀ p, Reached mem (header mem fdt) stops p → TokenInside S mem (header mem fdt) inside p := by
  unfold scanBlob
  rw [if_neg hfdt, stays_be32At, if_neg (not_not_intro hmagic), stays_readHeader,
    scanTokens_stays hinside hstops, ← and_assoc]
  rfl

theorem scanBlob_extends {onProp' : σ → (name value len : Nat) → Reads (σ × Bool)}
    (hprop : ∀ st name value len, (onProp st name value len).Extends (onProp' st name value len))
    (st : σ) (fdt : Nat) : (scanBlob mem onProp st fdt).Extends (scanBlob mem onProp' st fdt) := by
  unfold scanBlob
  refine (Reads.Extends.refl _).ite (Reads.Extends.bind (.refl _) fun magic => ?_)
  refine (Reads.Extends.refl _).ite (Reads.Extends.bind (.refl _) fun h => ?_)
  exact scanTokens_extends hprop st h.structp

end

/-! ## `find_bootargs` -/

section

variable {S : Nat → Prop} {mem : Nat → BitVec 8} {h : Header}

/-- The property at which `find_bootargs` stops. -/
def IsBootargs (mem : Nat → BitVec 8) (name _value len : Nat) : Prop :=
  Holds mem name (bootargsName ++ [0]) ∧ 0 < len

/-- The comparison of a name with `bootargs`. -/
def BootargsInside (S : Nat → Prop) (mem : Nat → BitVec 8) (name _value _len : Nat) : Prop :=
  UpTo S 9 (Differs mem (bootargsName ++ [0]) name) name

theorem onBootargs_stays (found : Option Nat) (name value len : Nat) :
    (onBootargs mem found name value len).Stays S ↔ BootargsInside S mem name value len := by
  unfold onBootargs
  rw [CString.stays_strcmp]
  refine and_iff_left ?_
  split
  · exact stays_pure _
  · exact stays_pure _

theorem onBootargs_result (found : Option Nat) (name value len : Nat) :
    (onBootargs mem found name value len).result =
      some (if Holds mem name (bootargsName ++ [0]) ∧ 0 < len then (some value, true)
        else (found, false)) := by
  unfold onBootargs
  rw [result_bind CString.strcmp_result]
  simp only [Bool.and_eq_true, decide_eq_true_eq]
  split
  · rfl
  · rfl

theorem onBootargs_stops (found : Option Nat) (name value len : Nat) (r : Option Nat × Bool)
    (hr : (onBootargs mem found name value len).result = some r) :
    r.2 = true ↔ IsBootargs mem name value len := by
  rw [onBootargs_result, Option.some.injEq] at hr
  subst hr
  unfold IsBootargs
  split
  · next hyes => exact iff_of_true rfl hyes
  · next hno => exact iff_of_false Bool.false_ne_true hno

/-! ### The result

It is that of the loop with fuel in `GuestDtb`. -/

theorem strnlen_eq_length (p n : Nat) : Riscv64.strnlen mem p n = CString.length mem p n := by
  induction n generalizing p with
  | zero => rfl
  | succ n ih =>
    have hshift : (fun i => mem (p + i) == 0) ∘ Nat.succ = fun i => mem (p + 1 + i) == 0 := by
      funext i
      rw [Function.comp_apply, Nat.succ_eq_add_one, Nat.add_right_comm, Nat.add_assoc]
    rw [CString.length, ← ih, Riscv64.strnlen, List.range_succ_eq_map, List.find?_cons, List.find?_map,
      hshift]
    by_cases h0 : mem p = 0
    · rw [if_pos h0, Nat.add_zero, h0]
      rfl
    · rw [if_neg h0, Nat.add_zero, beq_eq_false_iff_ne.mpr h0, Riscv64.strnlen]
      cases (List.range n).find? fun i => mem (p + 1 + i) == 0 with
      | none => rfl
      | some i => rfl

theorem readBytes_eq_iff {p : Nat} {s : Bytes} : readBytes mem p s.length = s ↔ Holds mem p s := by
  induction s generalizing p with
  | nil => exact iff_of_true rfl trivial
  | cons c s ih =>
    rw [List.length_cons, Nat.add_comm, readBytes_add, Holds, ← ih]
    exact List.cons_eq_cons

theorem strEq_eq (p : Nat) (s : Bytes) : strEq mem p s = decide (Holds mem p (s ++ [0])) := by
  have hlen : (s ++ [0]).length = s.length + 1 := List.length_append
  rw [Bool.eq_iff_iff, decide_eq_true_iff, strEq, beq_iff_eq, ← hlen, readBytes_eq_iff]

theorem scanTokens_bootargs (fuel p : Nat) (hfuel : h.structEnd < p + fuel) :
    (scanTokens mem (onBootargs mem) h none p).result =
      some (findBootargsLoop mem h.structEnd h.strings h.stringsSize fuel p) := by
  induction fuel generalizing p with
  | zero =>
    rw [scanTokens, if_neg (by omega)]
    rfl
  | succ fuel ih =>
    have hnext {q : Nat} (hq : p + 4 ≤ q) : (scanTokens mem (onBootargs mem) h none q).result =
        some (findBootargsLoop mem h.structEnd h.strings h.stringsSize fuel q) := ih q (by omega)
    rw [scanTokens, findBootargsLoop]
    by_cases hin : p + 4 ≤ h.structEnd
    · rw [if_pos hin, if_neg (Nat.not_lt.mpr hin), result_bind (a := readBe32 mem p) rfl]
      simp only [strnlen_eq_length, strEq_eq]
      split
      · have hle := le_align4 (p + 4 + CString.length mem (p + 4) (h.structEnd - (p + 4)) + 1)
        rw [result_bind CString.strnlen_result, hnext (by omega)]
      split
      · have hle : p + 4 ≤ align4 (p + 12 + propLen mem p) :=
          Nat.le_trans (by omega) (le_align4 (p + 12 + propLen mem p))
        split
        · rfl
        · rw [result_bind (a := readBe32 mem (p + 4)) rfl, result_bind (a := readBe32 mem (p + 8)) rfl]
          split
          · exact hnext hle
          · rw [result_bind (onBootargs_result _ _ _ _)]
            simp only [Bool.and_eq_true, decide_eq_true_eq]
            split
            · rfl
            · exact hnext hle
      · split
        · rfl
        · split
          · exact hnext (Nat.le_refl _)
          · rfl
    · rw [if_neg hin, if_pos (Nat.lt_of_not_le hin)]
      rfl

/-- The two models of `find_bootargs` have the same result. -/
theorem findBootargs_result (fdt : Nat) :
    (findBootargs mem fdt).result = some (Riscv64.findBootargs mem fdt) := by
  unfold findBootargs scanBlob Riscv64.findBootargs
  split
  · next h0 =>
    rw [if_pos (.inl h0)]
    rfl
  · next h0 =>
    rw [result_bind (a := readBe32 mem fdt) rfl]
    split
    · next hmagic =>
      rw [if_pos (.inr hmagic)]
      rfl
    · next hmagic =>
      rw [if_neg (not_or_intro h0 hmagic), result_bind (a := header mem fdt) rfl]
      exact scanTokens_bootargs _ _ (Nat.lt_succ_self _)

end

end HyperCore.Riscv64.FdtScan
