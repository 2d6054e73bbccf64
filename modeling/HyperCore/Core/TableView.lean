import HyperCore.Core.TableUndo

/-!
# Tables whose entries say more than the mapper reads

An entry can hold bits that a mapper neither tests nor sets: attributes of the call, a software
count. A `view` drops them, word by word, and `Mirrors view x y` says that `y` does on the host as it
is seen what `x` does on the host. Code whose entries carry such bits then has the theorems of the
mapper on the seen host.

The descent of a mapper is also stated from the level where it stands (`descendFrom`), for code that
calls itself level by level, and with a last level that refuses an entry in use (`mapFree`).
-/

namespace HyperCore.TableMap

open RadixTable Bitmap PageAlloc ArchPage

variable {L : Layout}

/-! ## Seen hosts -/

/-- The host with its memory seen through `view`. -/
def Host.seen (view : Nat → Word → Word) (h : Host) : Host :=
  { h with mem := fun a => view a (h.mem a) }

/-- How a call ended, on the host as it is seen. -/
def seenResult {α : Type} (view : Nat → Word → Word) :
    EStateM.Result Stop Host α → EStateM.Result Stop Host α
  | .ok a h => .ok a (h.seen view)
  | .error e h => .error e (h.seen view)

/-- `y` does on the seen host what `x` does on the host. -/
def Mirrors {α : Type} (view : Nat → Word → Word) (x y : HostM α) : Prop :=
  ∀ h, y (h.seen view) = seenResult view (x h)

/-- A store that the log does not show. -/
def store (tr : Nat → Option Nat) (va : Nat) (e : Word) : HostM Unit := fun h =>
  match tr va with
  | none => .error .fault h
  | some a => .ok () { h with mem := setMem h.mem a e }

theorem store_reached {tr : Nat → Option Nat} {va a : Nat} {h : Host} (w : Word) (htr : tr va = some a) :
    ∃ h', store tr va w h = .ok () h' ∧ h'.mem = setMem h.mem a w ∧ h'.bitmap = h.bitmap := by
  simp only [store, htr]
  exact ⟨_, rfl, rfl, rfl⟩

section

variable {view : Nat → Word → Word} {α β : Type} {h : Host} {tr : Nat → Option Nat} {va : Nat}

theorem seen_setMem (h : Host) (a : Nat) (w : Word) :
    (fun x => view x (setMem h.mem a w x)) = setMem (h.seen view).mem a (view a w) := by
  funext x
  simp only [setMem]
  split
  · next hx => rw [hx]
  · rfl

theorem takePage_of {taken : Int × Bitmap} (ht : allocOnePage h.bitmap = taken) :
    takePage h = .ok taken.1 { h with bitmap := taken.2 } := by
  rw [takePage, ht]

namespace Mirrors

theorem run {x y : HostM α} {a : α} {h' : Host} (hx : Mirrors view x y) (hrun : x h = .ok a h') :
    y (h.seen view) = .ok a (h'.seen view) := by
  rw [hx h, hrun]
  rfl

theorem back {x y : HostM α} {a : α} {g : Host} (hx : Mirrors view x y)
    (hrun : y (h.seen view) = .ok a g) : ∃ h', x h = .ok a h' ∧ g = h'.seen view := by
  rw [hx h] at hrun
  cases hr : x h with
  | ok a' h' =>
    rw [hr] at hrun
    cases hrun
    exact ⟨h', rfl, rfl⟩
  | error e h' =>
    rw [hr] at hrun
    cases hrun

theorem pure (a : α) : Mirrors view (Pure.pure a) (Pure.pure a) := fun _ => rfl

theorem fatal : Mirrors (α := α) view TableMap.fatal TableMap.fatal := fun _ => rfl

/-- A call is mirrored up to a map of its values; what follows may rely on what it returned. -/
theorem bind_of {x : HostM α} {y : HostM β} {γ : Type} {f : α → HostM γ} {g : β → HostM γ}
    {v : α → β} {P : α → Prop} (hx : Mirrors view (v <$> x) y)
    (hP : ∀ h a h', x h = .ok a h' → P a) (hf : ∀ a, P a → Mirrors view (f a) (g (v a))) :
    Mirrors view (x >>= f) (y >>= g) := by
  intro h
  have hy := hx h
  cases hr : x h with
  | ok a h' =>
    have hmap : (v <$> x) h = .ok (v a) h' := by
      simp only [Functor.map, EStateM.map, hr]
    rw [hmap] at hy
    rw [bind_ok hr, bind_ok hy]
    exact hf a (hP h a h' hr) h'
  | error e h' =>
    have hmap : (v <$> x) h = .error e h' := by
      simp only [Functor.map, EStateM.map, hr]
    rw [hmap] at hy
    rw [bind_error hr, bind_error hy]
    rfl

theorem bind {x y : HostM α} {f g : α → HostM β} (hx : Mirrors view x y)
    (hf : ∀ a, Mirrors view (f a) (g a)) : Mirrors view (x >>= f) (y >>= g) := by
  have hid : Mirrors view (id <$> x) y := by
    rw [id_map]
    exact hx
  exact hid.bind_of (P := fun _ => True) (fun _ _ _ _ => trivial) fun a _ => hf a

/-- Code that what is seen does not show. -/
theorem skip {x : HostM Unit} {f : Unit → HostM α} {y : HostM α} (hx : Mirrors view x (Pure.pure ()))
    (hf : Mirrors view (f ()) y) : Mirrors view (x >>= f) y := by
  have hb : Mirrors view (x >>= f) (Pure.pure () >>= fun _ => y) := hx.bind fun _ => hf
  rwa [pure_bind] at hb

theorem ite {x x' y y' : HostM α} {c : Prop} [Decidable c] (ht : c → Mirrors view x y)
    (he : ¬ c → Mirrors view x' y') : Mirrors view (if c then x else x') (if c then y else y') := by
  split
  · next hc => exact ht hc
  · next hc => exact he hc

/-- A test that ends in `hyper_fatal`. -/
theorem check {f g : Unit → HostM α} {c : Prop} [Decidable c] (hf : Mirrors view (f ()) (g ())) :
    Mirrors view (if c then TableMap.fatal >>= f else f ())
      (if c then TableMap.fatal >>= g else g ()) := by
  refine .ite (fun _ => ?_) fun _ => hf
  exact fatal.bind fun _ => hf

/-- A load: the code reads a word and the seen code the word as it is seen. -/
theorem load {f g : Word → HostM α}
    (hf : ∀ a w, tr va = some a → Mirrors view (f w) (g (view a w))) :
    Mirrors view (TableMap.load tr va >>= f) (TableMap.load tr va >>= g) := by
  intro h
  cases htr : tr va with
  | none =>
    have hload (h : Host) : TableMap.load tr va h = .error .fault h := by
      simp only [TableMap.load, htr]
    rw [bind_error (hload _), bind_error (hload _)]
    rfl
  | some a =>
    have hload (h : Host) : TableMap.load tr va h = .ok (h.mem a) h := by
      simp only [TableMap.load, htr]
    rw [bind_ok (hload _), bind_ok (hload _)]
    exact hf a (h.mem a) htr h

theorem storeLink {e e' : Word} (he : ∀ a, view a e = e') (page : Nat) :
    Mirrors view (TableMap.storeLink tr va e page) (TableMap.storeLink tr va e' page) := by
  intro h
  simp only [TableMap.storeLink]
  split
  · rfl
  · next a _ => simp only [seenResult, Host.seen, ← he a, seen_setMem]

theorem storeLeaf {e e' : Word} (he : ∀ a, view a e = e') :
    Mirrors view (TableMap.storeLeaf tr va e) (TableMap.storeLeaf tr va e') := by
  intro h
  simp only [TableMap.storeLeaf]
  split
  · rfl
  · next a _ => simp only [seenResult, Host.seen, ← he a, seen_setMem]

theorem clearEntry (hz : ∀ a, view a 0 = 0) :
    Mirrors view (TableMap.clearEntry tr va) (TableMap.clearEntry tr va) := by
  intro h
  simp only [TableMap.clearEntry]
  split
  · rfl
  · next a _ => simp only [seenResult, Host.seen, seen_setMem, hz a]

theorem clearPage (hz : ∀ a, view a 0 = 0) :
    Mirrors view (TableMap.clearPage tr va) (TableMap.clearPage tr va) := by
  intro h
  simp only [TableMap.clearPage]
  split
  · rfl
  · next a _ =>
    have hmem : (fun x => view x (zeroMem h.mem a x)) = zeroMem (h.seen view).mem a := by
      funext x
      simp only [zeroMem]
      split
      · exact hz x
      · rfl
    simp only [seenResult, Host.seen, hmem]

theorem takePage : Mirrors view TableMap.takePage TableMap.takePage := by
  intro h
  obtain ⟨taken, ht⟩ : ∃ taken, allocOnePage h.bitmap = taken := ⟨_, rfl⟩
  rw [takePage_of ht, takePage_of (show allocOnePage (h.seen view).bitmap = taken from ht)]
  rfl

theorem givePage (pfn : Int) : Mirrors view (TableMap.givePage pfn) (TableMap.givePage pfn) :=
  fun _ => rfl

/-- A change of what the view drops. -/
theorem rewrite {f : Word → Word} {a : Nat} (htr : tr va = some a)
    (hf : ∀ w, view a (f w) = view a w) :
    Mirrors view (do let e ← TableMap.load tr va; store tr va (f e)) (Pure.pure ()) := by
  intro h
  have hload : TableMap.load tr va h = .ok (h.mem a) h := by
    simp only [TableMap.load, htr]
  have hmem : (fun x => view x (setMem h.mem a (f (h.mem a)) x)) = (h.seen view).mem := by
    rw [seen_setMem, hf]
    funext x
    simp only [setMem, Host.seen]
    split
    · next hx => rw [hx]
    · rfl
  rw [bind_ok hload]
  simp only [store, htr, seenResult, Host.seen, hmem]
  rfl

end Mirrors

end

/-! ## What a mapper does not see -/

/-- The view keeps what the unmapper reads and writes. -/
structure Mapper.Keeps (M : Mapper L) (view : Nat → Word → Word) : Prop where
  live : ∀ a w, M.live (view a w) = M.live w
  base : ∀ a w, M.base (view a w) = M.base w
  zero : ∀ a, view a 0 = 0

section

variable {M : Mapper L} {view : Nat → Word → Word}

theorem Mapper.Keeps.anyLive (hv : M.Keeps view) (t n : Nat) :
    Mirrors view (M.anyLive t n) (M.anyLive t n) := by
  induction n with
  | zero => exact .pure false
  | succ n ih =>
    refine ih.bind fun found => .load fun a w _ => ?_
    rw [hv.live]
    exact .pure _

theorem Mapper.Keeps.unmapAt (hv : M.Keeps view) (idx : Nat → Fin 512) (n : Nat) :
    ∀ k t, Mirrors view (M.unmapAt idx n k t) (M.unmapAt idx n k t) := by
  induction n with
  | zero =>
    intro k t
    refine .ite (fun _ => .pure ()) fun _ => .load fun a w _ => ?_
    rw [hv.live, hv.base]
    exact .check (.clearEntry hv.zero)
  | succ n ih =>
    intro k t
    refine .ite (fun _ => .pure ()) fun _ => .load fun a w _ => ?_
    rw [hv.live, hv.base]
    refine .check ((ih _ _).bind fun _ => (hv.anyLive _ _).bind fun found =>
      .ite (fun _ => .pure ()) fun _ => ?_)
    exact (Mirrors.givePage _).bind fun _ => .clearEntry hv.zero

end

/-! ## The descent from where it stands -/

/-- The descent from `table` at level `k` through `n` levels, then `last` on the table found. -/
def Mapper.descendFrom (M : Mapper L) (idx : Nat → Fin 512) (last : Nat → HostM Unit) :
    Nat → Nat → Nat → HostM Unit
  | 0, _, table => last table
  | n + 1, k, table => do
    let next ← M.nextTable table (idx k)
    M.descendFrom idx last n (k + 1) next

theorem Mapper.descend_then (M : Mapper L) (rt : Nat) (idx : Nat → Fin 512) (last : Nat → HostM Unit)
    (n : Nat) : ∀ k, (M.descend rt idx k >>= M.descendFrom idx last n k) =
      M.descend rt idx (k + n) >>= last := by
  induction n with
  | zero => exact fun _ => rfl
  | succ n ih =>
    intro k
    have hstep : (M.descend rt idx k >>= M.descendFrom idx last (n + 1) k) =
        M.descend rt idx (k + 1) >>= M.descendFrom idx last n (k + 1) := by
      simp only [Mapper.descend, Mapper.descendFrom, bind_assoc]
    rw [hstep, ih (k + 1), Nat.add_right_comm, Nat.add_assoc]

/-- Writes the last-level entry of `table`, unless there is something in it. -/
def Mapper.fillLeaf (M : Mapper L) (i : Nat) (e : Word) (table : Nat) : HostM Unit := do
  let old ← load M.tr (table + 8 * i)
  if M.live old || M.base old != 0 then fatal
  storeLeaf M.tr (table + 8 * i) e

/-- Maps one page whose entry is empty. -/
def Mapper.mapFree (M : Mapper L) (root depth : Nat) (idx : Nat → Fin 512) (e : Word) : HostM Unit := do
  let table ← M.descend root idx depth
  M.fillLeaf (idx depth) e table

/-- A word that is not clear. -/
def filled (e : Word) : Option Unit := if e = 0 then none else some ()

theorem filled_zero : filled 0 = none := rfl

theorem zero_of_filled {e : Word} (he : filled e = none) : e = 0 := by
  rw [filled] at he
  split at he
  · next hz => exact hz
  · cases he

/-- A clear entry has no translation. -/
theorem lookup_of_unfilled {O : Type} {F : Format Word} {leaf : Word → Option O} {m : Nat → Word}
    {root depth : Nat} {idx : Nat → Fin 512} (hempty : lookup F filled m root depth idx = none)
    (h0 : leaf 0 = none) : lookup F leaf m root depth idx = none := by
  rw [lookup] at hempty ⊢
  refine Option.bind_eq_none_iff.mpr fun b hb => ?_
  rw [hb, Option.bind_some] at hempty
  rw [zero_of_filled hempty, h0]

section

variable {M : Mapper L} {root depth rt : Nat} {h h' : Host} {idx : Nat → Fin 512} {e : Word}

theorem load_same {tr : Nat → Option Nat} {va : Nat} {w : Word} (hrun : load tr va h = .ok w h') :
    h' = h := by
  rw [load] at hrun
  split at hrun
  · cases hrun
  · cases hrun
    rfl

/-- Where it returns it has mapped the page. -/
theorem mapFree_ok (hrun : M.mapFree rt depth idx e h = .ok () h') :
    M.mapPage rt depth idx e h = .ok () h' := by
  obtain ⟨t, h₁, hrun₁, hrest⟩ := bind_eq_ok hrun
  rw [Mapper.mapPage, bind_ok hrun₁]
  obtain ⟨old, h₂, hload, hrest⟩ := bind_eq_ok hrest
  rw [load_same hload] at hrest
  split at hrest
  · exact absurd hrest fatal_bind_ne
  · exact hrest

/-- On an empty entry it is the mapper. -/
theorem mapFree_eq (ht : Tables M root depth h) (hroot : M.At rt root) (hsee : Sees M root depth h idx)
    (hbase : M.base 0 = 0) (hempty : lookup M.format filled h.mem root depth idx = none)
    (hfree : missing M root h idx depth ≤ evenFree h.bitmap M.half) :
    M.mapFree rt depth idx e h = M.mapPage rt depth idx e h := by
  obtain ⟨h₁, t, b, hrun, hb, hat, -, hw⟩ := descend_good ht hroot hsee (Nat.le_refl _) hfree
  have hnone := hw filled filled_zero idx
  rw [hempty, lookup, hb, Option.bind_some] at hnone
  have hclear : (M.live (h₁.mem (slot b (idx depth))) || M.base (h₁.mem (slot b (idx depth))) != 0) =
      false := by
    rw [zero_of_filled hnone, M.live_zero, hbase]
    rfl
  have hload : load M.tr (t + 8 * idx depth) h₁ = .ok (h₁.mem (slot b (idx depth))) h₁ :=
    load_at hat _ _
  rw [Mapper.mapFree, Mapper.mapPage, bind_ok hrun, bind_ok hrun, Mapper.fillLeaf, bind_ok hload,
    hclear]
  rfl

theorem anyLive_same {t n : Nat} {found : Bool} (hrun : M.anyLive t n h = .ok found h') :
    h' = h := by
  induction n generalizing found h' with
  | zero =>
    cases hrun
    rfl
  | succ n ih =>
    obtain ⟨a, h₁, hscan, hrun⟩ := bind_eq_ok hrun
    obtain ⟨w, h₂, hload, hrun⟩ := bind_eq_ok hrun
    cases hrun
    exact (load_same hload).trans (ih hscan)

theorem clearEntry_clears {tr : Nat → Option Nat} {va : Nat} (hrun : clearEntry tr va h = .ok () h')
    (x : Nat) : h'.mem x = h.mem x ∨ h'.mem x = 0 := by
  rw [clearEntry] at hrun
  split at hrun
  · cases hrun
  · next a _ =>
    cases hrun
    show (if x = a then 0 else h.mem x) = _ ∨ (if x = a then 0 else h.mem x) = _
    split
    · exact .inr rfl
    · exact .inl rfl

/-- Clearing entries is all that unmapping does to memory. -/
theorem unmapAt_clears (n : Nat) : ∀ {k t h h'}, M.unmapAt idx n k t h = .ok () h' → ∀ x,
    h'.mem x = h.mem x ∨ h'.mem x = 0 := by
  induction n with
  | zero =>
    intro k t h h' hrun x
    rw [Mapper.unmapAt] at hrun
    split at hrun
    · cases hrun
      exact .inl rfl
    · obtain ⟨e, h₁, hload, hrun⟩ := bind_eq_ok hrun
      cases load_same hload
      split at hrun
      · exact absurd hrun fatal_bind_ne
      · exact clearEntry_clears hrun x
  | succ n ih =>
    intro k t h h' hrun x
    rw [Mapper.unmapAt] at hrun
    split at hrun
    · cases hrun
      exact .inl rfl
    · obtain ⟨e, h₁, hload, hrun⟩ := bind_eq_ok hrun
      cases load_same hload
      split at hrun
      · exact absurd hrun fatal_bind_ne
      · obtain ⟨_, h₂, hrun₂, hrun⟩ := bind_eq_ok hrun
        obtain ⟨found, h₃, hscan, hrun⟩ := bind_eq_ok hrun
        cases anyLive_same hscan
        split at hrun
        · cases hrun
          exact ih hrun₂ x
        · obtain ⟨_, h₄, hgive, hrun⟩ := bind_eq_ok hrun
          cases hgive
          rcases clearEntry_clears hrun x with hx | hx
          · rw [hx]
            exact ih hrun₂ x
          · exact .inr hx

end

end HyperCore.TableMap
