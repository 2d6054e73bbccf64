import HyperCore.Core.Tlsf.Memalign
import HyperCore.Core.Tlsf.Check

/-!
# Runs of calls

What the allocator is for: `Objects` are the pieces of memory that its callers own, each with its
contents. `Serves` says which answers a call may get and what becomes of the objects then; it
knows nothing of blocks, lists or bitmaps. `tlsf_serves` is the refinement: whatever calls are
made, by callers that keep to what they own, every one completes with an answer that `Serves`
allows.
-/

namespace HyperCore.Tlsf

open ByteMem MachineInt Segregated

/-! ## Objects -/

/-- The contents of the object at each pointer. -/
abbrev Objects := Nat → Option (List (BitVec 8))

inductive Call where
  | malloc (size : SizeT)
  | memalign (k : Nat) (size : SizeT)
  | free (ptr : Nat)
  | realloc (ptr : Nat) (size : SizeT)
  | load (ptr i : Nat)
  | store (ptr i : Nat) (v : BitVec 8)

/-- No two objects share a byte. -/
def Apart (s : Objects) : Prop :=
  ∀ p q x y, s p = some x → s q = some y → p ≠ q → p + x.length ≤ q ∨ q + y.length ≤ p

/-- An object of `size` bytes, whatever they are, comes to be at `p`. -/
structure Born (s : Objects) (size p : Nat) (x : List (BitVec 8)) : Prop where
  fresh : s p = none
  ne : p ≠ 0
  length : x.length = size
  apart : Apart (Function.update s p (some x))

/-- The answers that a call may get. -/
inductive Serves : Objects → Call → Nat → Objects → Prop
  | malloc {s size p x} : Born s size.toNat p x →
      Serves s (.malloc size) p (Function.update s p (some x))
  | mallocNull {s size} : Serves s (.malloc size) 0 s
  | memalign {s k size p x} : Born s size.toNat p x → 2 ^ k ∣ p →
      Serves s (.memalign k size) p (Function.update s p (some x))
  | memalignNull {s k size} : Serves s (.memalign k size) 0 s
  | free {s p x} : s p = some x → Serves s (.free p) 0 (Function.update s p none)
  | freeNull {s} : Serves s (.free 0) 0 s
  | realloc {s p size q x y} : s p = some x → Born (Function.update s p none) size.toNat q y →
      (∀ i, i < x.length → i < y.length → y[i]? = x[i]?) →
      Serves s (.realloc p size) q (Function.update (Function.update s p none) q (some y))
  | reallocKept {s p size x} : s p = some x → x.length < size.toNat →
      Serves s (.realloc p size) 0 s
  | reallocFree {s p x} : s p = some x → Serves s (.realloc p 0) 0 (Function.update s p none)
  | reallocNew {s size p x} : Born s size.toNat p x →
      Serves s (.realloc 0 size) p (Function.update s p (some x))
  | reallocNull {s size} : Serves s (.realloc 0 size) 0 s
  | load {s p i x v} : s p = some x → x[i]? = some v → Serves s (.load p i) v.toNat s
  | store {s p i x v} : s p = some x → i < x.length →
      Serves s (.store p i v) 0 (Function.update s p (some (x.set i v)))

/-- What a caller keeps to: it names its own objects, and asks for sizes that can be rounded. -/
def Allowed (s : Objects) : Call → Prop
  | .malloc size => size.toNat ≤ 2 ^ 64 - 8
  | .memalign k size => k ≤ 62 ∧ Accepted size
  | .free p => p = 0 ∨ ∃ x, s p = some x
  | .realloc p size => (p = 0 ∧ size.toNat ≤ 2 ^ 64 - 8) ∨
      (p ≠ 0 ∧ (∃ x, s p = some x) ∧ (size = 0 ∨ Accepted size))
  | .load p i => ∃ x, s p = some x ∧ i < x.length
  | .store p i _ => ∃ x, s p = some x ∧ i < x.length

/-! ## Calls on the heap -/

/-- A call, and the accesses of the callers to their memory. -/
def exec (null : Nat) (h : Heap) : Call → Option (Heap × Nat)
  | .malloc size => tlsfMalloc null h size
  | .memalign k size => tlsfMemalign null h (BitVec.ofNat 64 (2 ^ k)) size
  | .free p => (tlsfFree null h p).map fun h' => (h', 0)
  | .realloc p size => tlsfRealloc null h p size
  | .load p i => some (h, (h.bytes (p + i)).toNat)
  | .store p i v => some ({ h with bytes := Function.update h.bytes (p + i) v }, 0)

def runCalls (null : Nat) : Heap → List Call → Option (Heap × List Nat)
  | h, [] => some (h, [])
  | h, c :: cs => do
    let (h, r) ← exec null h c
    let (h, rs) ← runCalls null h cs
    pure (h, r :: rs)

/-- Calls with their answers, one after another. -/
inductive ServesAll : Objects → List Call → List Nat → Objects → Prop
  | nil {s} : ServesAll s [] [] s
  | cons {s c r s' cs rs s''} : Serves s c r s' → ServesAll s' cs rs s'' →
      ServesAll s (c :: cs) (r :: rs) s''

/-- Every call is allowed by what the answers before it say of the objects. -/
def Disciplined (null : Nat) : Heap → Objects → List Call → Prop
  | _, _, [] => True
  | h, s, c :: cs => Allowed s c ∧
      ∀ h' r s', exec null h c = some (h', r) → Serves s c r s' → Disciplined null h' s' cs

/-! ## What the heap holds -/

/-- The objects lie in the blocks in use, one in each. -/
structure Holds (b : Nat) (h : Heap) (l : List Blk) (s : Objects) : Prop where
  block : ∀ p x, s p = some x → ∃ a n, p = a + 16 ∧ UsedIn b l a n ∧ x.length ≤ n ∧
    ∀ i v, x[i]? = some v → h.bytes (p + i) = v
  object : ∀ a n, UsedIn b l a n → ∃ x, s (a + 16) = some x

section

variable {null a b c k n p q : Nat} {h h' : Heap} {l l' : List Blk} {L : Nat → Nat → List Nat}
  {s : Objects} {x y : List (BitVec 8)}

theorem Holds.apart (hs : Holds b h l s) : Apart s := by
  intro p q x y hp hq hne
  obtain ⟨a, n, rfl, ha, hx, -⟩ := hs.block p x hp
  obtain ⟨c, k, rfl, hc, hy, -⟩ := hs.block q y hq
  rcases ha.apart hc with ⟨rfl, -⟩ | hlt | hlt
  · exact absurd rfl hne
  · simp only at hlt
    omega
  · simp only at hlt
    omega

/-- The bytes of an object are none of the allocator's. -/
theorem not_internal (hu : UsedIn b l a n) {i : Nat} (hi : i < n) :
    ¬ Internal null b l (a + 16 + i) :=
  fun hin => hin.1 ⟨a, n, hu, by simp only [Within]; omega⟩

theorem lt_length {i : Nat} {v : BitVec 8} (hv : x[i]? = some v) : i < x.length :=
  (List.getElem?_eq_some_iff.mp hv).1

theorem Holds.none_of_fresh (hs : Holds b h l s) (hfresh : ∀ j, ¬ UsedIn b l c j) :
    s (c + 16) = none := by
  by_contra hne
  obtain ⟨x, hx⟩ := Option.ne_none_iff_exists'.mp hne
  obtain ⟨a, n, ha, hu, -⟩ := hs.block _ x hx
  obtain rfl : c = a := by omega
  exact hfresh n hu

/-- Blocks that are not touched keep their objects. -/
theorem Holds.kept (hs : Holds b h l s) (hp : s p = some x) (hpa : p ≠ c + 16)
    (hused : ∀ d j, UsedIn b l d j → d ≠ c → UsedIn b l' d j)
    (hbytes : ∀ d j i, UsedIn b l d j → d ≠ c → i < j → h'.bytes (d + 16 + i) = h.bytes (d + 16 + i)) :
    ∃ a n, p = a + 16 ∧ UsedIn b l' a n ∧ x.length ≤ n ∧
      ∀ i v, x[i]? = some v → h'.bytes (p + i) = v := by
  obtain ⟨a, n, rfl, hu, hle, hx⟩ := hs.block p x hp
  have hac : a ≠ c := fun he => hpa (he ▸ rfl)
  refine ⟨a, n, rfl, hused a n hu hac, hle, fun i v hv => ?_⟩
  rw [hbytes a n i hu hac (Nat.lt_of_lt_of_le (lt_length hv) hle)]
  exact hx i v hv

/-- What a block of memory holds. -/
def snapshot (h : Heap) (p size : Nat) : List (BitVec 8) := (List.range size).map fun i => h.bytes (p + i)

theorem length_snapshot (h : Heap) (p size : Nat) : (snapshot h p size).length = size := by
  rw [snapshot, List.length_map, List.length_range]

theorem getElem?_snapshot {size i : Nat} (hi : i < size) :
    (snapshot h p size)[i]? = some (h.bytes (p + i)) := by
  rw [snapshot, List.getElem?_map, List.getElem?_range hi]
  rfl

theorem snapshot_holds {size i : Nat} {v : BitVec 8} (hv : (snapshot h p size)[i]? = some v) :
    h.bytes (p + i) = v := by
  have hi := lt_length hv
  rw [length_snapshot] at hi
  rw [getElem?_snapshot hi] at hv
  exact Option.some.inj hv

/-- A block that was handed out holds a new object. -/
theorem Holds.obtained {size : Nat} (hs : Holds b h l s) (ho : Obtained null b h l c k h' l')
    (hle : size ≤ k) :
    Holds b h' l' (Function.update s (c + 16) (some (snapshot h' (c + 16) size))) ∧
      Born s size (c + 16) (snapshot h' (c + 16) size) := by
  have hnew : Holds b h' l' (Function.update s (c + 16) (some (snapshot h' (c + 16) size))) := by
    refine ⟨fun p x hp => ?_, fun a n hu => ?_⟩
    · by_cases hpc : p = c + 16
      · subst hpc
        rw [Function.update_self] at hp
        obtain rfl := Option.some.inj hp
        refine ⟨c, k, rfl, (ho.used c k).mpr (Or.inr ⟨rfl, rfl⟩), ?_, fun i v hv => snapshot_holds hv⟩
        rwa [length_snapshot]
      · rw [Function.update_of_ne hpc] at hp
        exact hs.kept hp hpc (fun d j hu _ => (ho.used d j).mpr (Or.inl hu))
          fun d j i hu _ hi => ho.differ _ (not_internal hu hi)
    · by_cases hac : a = c
      · rw [hac, Function.update_self]
        exact ⟨_, rfl⟩
      · rw [Function.update_of_ne (by omega)]
        exact hs.object a n (((ho.used a n).mp hu).resolve_right fun he => hac he.1)
  exact ⟨hnew, hs.none_of_fresh ho.fresh, by omega, length_snapshot _ _ _, hnew.apart⟩

/-- A block that was given up holds none. -/
theorem Holds.released (hs : Holds b h l s) (hr : Released null b h l c n h' l')
    (hu : UsedIn b l c n) : Holds b h' l' (Function.update s (c + 16) none) := by
  refine ⟨fun p x hp => ?_, fun a k ha => ?_⟩
  · have hpc : p ≠ c + 16 := by
      rintro rfl
      rw [Function.update_self] at hp
      cases hp
    rw [Function.update_of_ne hpc] at hp
    refine hs.kept hp hpc (fun d j hd hne => (hr.used d j).mpr ⟨hd, hne⟩) fun d j i hd hne hi => ?_
    refine hr.differ _ ?_
    rintro (hin | hin)
    · exact not_internal hd hi hin
    · simp only [Within] at hin
      rcases hd.apart hu with ⟨he, -⟩ | hlt | hlt
      · exact hne he
      · simp only at hlt
        omega
      · simp only at hlt
        omega
  · obtain ⟨ha', hne⟩ := (hr.used a k).mp ha
    rw [Function.update_of_ne (by omega)]
    exact hs.object a k ha'

/-- A block that was resized or moved holds the front of its object. -/
theorem Holds.reallocated {size c' : Nat} (hs : Holds b h l s)
    (hr : Reallocated null b h l c n size c' k h' l') (hu : UsedIn b l c n) (hx : s (c + 16) = some x) :
    Holds b h' l' (Function.update (Function.update s (c + 16) none) (c' + 16)
      (some (snapshot h' (c' + 16) size))) ∧
    Born (Function.update s (c + 16) none) size (c' + 16) (snapshot h' (c' + 16) size) ∧
    ∀ i, i < x.length → i < (snapshot h' (c' + 16) size).length →
      (snapshot h' (c' + 16) size)[i]? = x[i]? := by
  have hbytes : ∀ d j i, UsedIn b l d j → d ≠ c → i < j →
      h'.bytes (d + 16 + i) = h.bytes (d + 16 + i) := by
    intro d j i hd hne hi
    refine hr.differ _ ?_
    rintro (hin | hin)
    · exact not_internal hd hi hin
    · simp only [Within] at hin
      rcases hd.apart hu with ⟨he, -⟩ | hlt | hlt
      · exact hne he
      · simp only at hlt
        omega
      · simp only at hlt
        omega
  have hnew : Holds b h' l' (Function.update (Function.update s (c + 16) none) (c' + 16)
      (some (snapshot h' (c' + 16) size))) := by
    refine ⟨fun p z hp => ?_, fun a j ha => ?_⟩
    · by_cases hpc' : p = c' + 16
      · subst hpc'
        rw [Function.update_self] at hp
        obtain rfl := Option.some.inj hp
        refine ⟨c', k, rfl, (hr.used c' k).mpr (Or.inr ⟨rfl, rfl⟩), ?_, fun i v hv => snapshot_holds hv⟩
        rw [length_snapshot]
        exact hr.fits
      · rw [Function.update_of_ne hpc'] at hp
        have hpc : p ≠ c + 16 := by
          rintro rfl
          rw [Function.update_self] at hp
          cases hp
        rw [Function.update_of_ne hpc] at hp
        exact hs.kept hp hpc (fun d j hd hne => (hr.used d j).mpr (Or.inl ⟨hd, hne⟩)) hbytes
    · by_cases hac : a = c'
      · rw [hac, Function.update_self]
        exact ⟨_, rfl⟩
      · obtain ⟨ha', hne⟩ := ((hr.used a j).mp ha).resolve_right fun he => hac he.1
        rw [Function.update_of_ne (by omega), Function.update_of_ne (by omega)]
        exact hs.object a j ha'
  refine ⟨hnew, ⟨?_, by omega, length_snapshot _ _ _, hnew.apart⟩, fun i hi hi' => ?_⟩
  · by_cases he : c' = c
    · rw [he, Function.update_self]
    · rw [Function.update_of_ne (by omega)]
      exact hs.none_of_fresh fun j hj => he (hr.fresh j hj)
  · rw [length_snapshot] at hi'
    obtain ⟨a, n', ha, hu', hle, hcontents⟩ := hs.block _ x hx
    obtain rfl : c = a := by omega
    have hn : n' = n := usedIn_one hu hu'
    rw [getElem?_snapshot hi', hr.data i (by omega) hi']
    obtain ⟨v, hv⟩ : ∃ v, x[i]? = some v := ⟨_, List.getElem?_eq_getElem hi⟩
    rw [hv, hcontents i v hv]

/-- A store to an object. -/
theorem Holds.store {i : Nat} (hs : Holds b h l s) (hx : s p = some x) (hi : i < x.length)
    (v : BitVec 8) : Holds b { h with bytes := Function.update h.bytes (p + i) v } l
      (Function.update s p (some (x.set i v))) := by
  have hapart := hs.apart
  refine ⟨fun q z hq => ?_, fun a n hu => ?_⟩
  · by_cases hqp : q = p
    · subst hqp
      rw [Function.update_self] at hq
      obtain rfl := Option.some.inj hq
      obtain ⟨a, n, ha, hu, hle, hcontents⟩ := hs.block q x hx
      refine ⟨a, n, ha, hu, ?_, fun j w hw => ?_⟩
      · rwa [List.length_set]
      · change Function.update h.bytes (q + i) v (q + j) = w
        rw [List.getElem?_set] at hw
        by_cases hij : i = j
        · rw [if_pos hij, if_pos (hij ▸ hi)] at hw
          rw [← hij, Function.update_self]
          exact Option.some.inj hw
        · rw [if_neg hij] at hw
          rw [Function.update_of_ne (by omega)]
          exact hcontents j w hw
    · rw [Function.update_of_ne hqp] at hq
      obtain ⟨a, n, ha, hu, hle, hcontents⟩ := hs.block q z hq
      refine ⟨a, n, ha, hu, hle, fun j w hw => ?_⟩
      have hj := lt_length hw
      change Function.update h.bytes (p + i) v (q + j) = w
      rw [Function.update_of_ne ?_]
      · exact hcontents j w hw
      · rcases hapart p q x z hx hq (Ne.symm hqp) with hlt | hlt
        · omega
        · omega
  · by_cases hap : a + 16 = p
    · rw [hap, Function.update_self]
      exact ⟨_, rfl⟩
    · rw [Function.update_of_ne hap]
      exact hs.object a n hu

/-! ## Steps and runs -/

/-- A heap whose pool has `bytes` bytes, and the objects in it. -/
def Rel (null b bytes : Nat) (h : Heap) (s : Objects) : Prop :=
  ∃ l L, Pool null b h l L ∧ span l = bytes ∧ Holds b h l s

variable {bytes : Nat}

theorem malloc_step (hrel : Rel null b bytes h s) {size : SizeT} (hsize : size.toNat ≤ 2 ^ 64 - 8) :
    (∃ h' p x, tlsfMalloc null h size = some (h', p) ∧ Born s size.toNat p x ∧
      Rel null b bytes h' (Function.update s p (some x))) ∨ tlsfMalloc null h size = some (h, 0) := by
  obtain ⟨l, L, hp, hspan, hs⟩ := hrel
  rcases tlsfMalloc_spec hp size with ⟨c, n, h', l', L', hrun, hne, ha, hp'⟩ | ⟨hrun, -⟩
  · have hle : size.toNat ≤ carved n (adjusted size.toNat) :=
      Nat.le_trans ((le_adjusted_iff size.isLt hne).mpr hsize) (le_carved ha.suits.fits)
    obtain ⟨hs', hborn⟩ := hs.obtained ha.toObtained hle
    exact Or.inl ⟨h', _, _, hrun, hborn, l', L', hp', ha.span_eq.trans hspan, hs'⟩
  · exact Or.inr hrun

theorem Rel.aligned (hrel : Rel null b bytes h s) (hx : s p = some x) : 8 ∣ p := by
  obtain ⟨l, L, hp, -, hs⟩ := hrel
  obtain ⟨a, n, rfl, hu, -⟩ := hs.block p x hx
  have := hp.tiles.addr_dvd hp.room.dvd hu
  omega

theorem memalign_step (hrel : Rel null b bytes h s) (hk : k ≤ 62) {size : SizeT}
    (hsize : Accepted size) :
    (∃ h' p x, tlsfMemalign null h (BitVec.ofNat 64 (2 ^ k)) size = some (h', p) ∧
      Born s size.toNat p x ∧ 2 ^ k ∣ p ∧ Rel null b bytes h' (Function.update s p (some x))) ∨
    tlsfMemalign null h (BitVec.ofNat 64 (2 ^ k)) size = some (h, 0) := by
  rcases Nat.lt_or_ge 3 k with hlarge | hsmall
  · obtain ⟨l, L, hp, hspan, hs⟩ := hrel
    rcases tlsfMemalign_spec hp hlarge hk hsize with ⟨a, j, h', l', L', hrun, hd, hle, hp', ho⟩ | hrun
    · obtain ⟨hs', hborn⟩ := hs.obtained ho hle
      exact Or.inl ⟨h', _, _, hrun, hborn, hd, l', L', hp', ho.span_eq.trans hspan, hs'⟩
    · exact Or.inr hrun
  · have hrun : tlsfMemalign null h (BitVec.ofNat 64 (2 ^ k)) size = tlsfMalloc null h size := by
      obtain ⟨l, L, hp, -⟩ := hrel
      exact tlsfMemalign_small hp hsmall size
    rw [hrun]
    rcases malloc_step hrel (Nat.le_trans hsize.2 (by decide)) with ⟨h', p, x, hm, hborn, hrel'⟩ | hm
    · have h8 : 2 ^ 3 ∣ p := hrel'.aligned (Function.update_self p (some x) s)
      exact Or.inl ⟨h', p, x, hm, hborn, Nat.dvd_trans (Nat.pow_dvd_pow 2 hsmall) h8, hrel'⟩
    · exact Or.inr hm

theorem free_step (hrel : Rel null b bytes h s) (hx : s p = some x) :
    ∃ h', tlsfFree null h p = some h' ∧ Rel null b bytes h' (Function.update s p none) := by
  obtain ⟨l, L, hp, hspan, hs⟩ := hrel
  obtain ⟨a, n, rfl, hu, -⟩ := hs.block p x hx
  obtain ⟨h', l', L', hrun, hr, hp'⟩ := tlsfFree_spec hp hu
  exact ⟨h', hrun, l', L', hp', hr.span_eq.trans hspan, hs.released hr hu⟩

/-- One call. -/
theorem exec_step (hrel : Rel null b bytes h s) {call : Call} (hcall : Allowed s call) :
    ∃ h' r s', exec null h call = some (h', r) ∧ Serves s call r s' ∧ Rel null b bytes h' s' := by
  cases call with
  | malloc size =>
    rcases malloc_step hrel hcall with ⟨h', p, x, hrun, hborn, hrel'⟩ | hrun
    · exact ⟨h', p, _, hrun, .malloc hborn, hrel'⟩
    · exact ⟨h, 0, s, hrun, .mallocNull, hrel⟩
  | memalign k size =>
    obtain ⟨hk, hsize⟩ := hcall
    rcases memalign_step hrel hk hsize with ⟨h', p, x, hrun, hborn, hd, hrel'⟩ | hrun
    · exact ⟨h', p, _, hrun, .memalign hborn hd, hrel'⟩
    · exact ⟨h, 0, s, hrun, .memalignNull, hrel⟩
  | free p =>
    rcases hcall with rfl | ⟨x, hx⟩
    · exact ⟨h, 0, s, rfl, .freeNull, hrel⟩
    · obtain ⟨h', hrun, hrel'⟩ := free_step hrel hx
      exact ⟨h', 0, _, by rw [exec, hrun]; rfl, .free hx, hrel'⟩
  | realloc p size =>
    rcases hcall with ⟨rfl, hsize⟩ | ⟨hp0, ⟨x, hx⟩, rfl | hsize⟩
    · have hrealloc : exec null h (.realloc 0 size) = tlsfMalloc null h size := by
        rw [exec, tlsfRealloc, if_neg fun hcon => hcon.1 rfl, if_pos rfl]
      rcases malloc_step hrel hsize with ⟨h', p, x, hrun, hborn, hrel'⟩ | hrun
      · exact ⟨h', p, _, hrealloc.trans hrun, .reallocNew hborn, hrel'⟩
      · exact ⟨h, 0, s, hrealloc.trans hrun, .reallocNull, hrel⟩
    · obtain ⟨h', hrun, hrel'⟩ := free_step hrel hx
      refine ⟨h', 0, _, ?_, .reallocFree hx, hrel'⟩
      rw [exec, tlsfRealloc, if_pos ⟨hp0, rfl⟩, hrun]
      rfl
    · obtain ⟨l, L, hp, hspan, hs⟩ := hrel
      obtain ⟨c, n, rfl, hu, hle, -⟩ := hs.block p x hx
      rcases tlsfRealloc_spec hp hu hsize with ⟨c', k, h', l', L', hrun, hp', hr⟩ | ⟨hrun, hlt, -⟩
      · obtain ⟨hs', hborn, hfront⟩ := hs.reallocated hr hu hx
        exact ⟨h', _, _, hrun, .realloc hx hborn hfront, l', L', hp', hr.span_eq.trans hspan, hs'⟩
      · exact ⟨h, 0, s, hrun, .reallocKept hx (Nat.lt_of_le_of_lt hle hlt), l, L, hp, hspan, hs⟩
  | load p i =>
    obtain ⟨x, hx, hi⟩ := hcall
    obtain ⟨l, L, hp, hspan, hs⟩ := hrel
    obtain ⟨a, n, -, -, -, hcontents⟩ := hs.block p x hx
    obtain ⟨v, hv⟩ : ∃ v, x[i]? = some v := ⟨_, List.getElem?_eq_getElem hi⟩
    refine ⟨h, _, s, ?_, .load hx hv, l, L, hp, hspan, hs⟩
    rw [exec, hcontents i v hv]
  | store p i v =>
    obtain ⟨x, hx, hi⟩ := hcall
    obtain ⟨l, L, hp, hspan, hs⟩ := hrel
    obtain ⟨a, n, rfl, hu, hle, -⟩ := hs.block p x hx
    have hp' : Pool null b { h with bytes := Function.update h.bytes (a + 16 + i) v } l L := by
      refine hp.write fun y hy => Function.update_of_ne ?_ _ _
      rintro rfl
      exact hy ⟨a, n, hu, by simp only [Within]; omega⟩
    exact ⟨_, 0, _, rfl, .store hx hi, l, L, hp', hspan, hs.store hx hi v⟩

/-- Every run. -/
theorem run_serves (hrel : Rel null b bytes h s) {cs : List Call} (hcs : Disciplined null h s cs) :
    ∃ h' rs s', runCalls null h cs = some (h', rs) ∧ ServesAll s cs rs s' ∧
      Rel null b bytes h' s' := by
  induction cs generalizing h s with
  | nil => exact ⟨h, [], s, rfl, .nil, hrel⟩
  | cons c cs ih =>
    obtain ⟨hallowed, hrest⟩ := hcs
    obtain ⟨h₁, r, s₁, hexec, hserves, hrel₁⟩ := exec_step hrel hallowed
    obtain ⟨h', rs, s', hrun, hall, hrel'⟩ := ih hrel₁ (hrest h₁ r s₁ hexec hserves)
    refine ⟨h', r :: rs, s', ?_, .cons hserves hall, hrel'⟩
    rw [runCalls, hexec]
    simp only [Option.bind_eq_bind, Option.bind_some, hrun]
    rfl

/-! ## From an empty heap -/

/-- The objects of a heap that was just made: none. -/
def noObjects : Objects := fun _ => none

variable {mem : Nat} {size : SizeT}

theorem tlsfGetPool_sub (mem : Nat) : tlsfGetPool mem - 8 + 8 = tlsfGetPool mem := by
  rw [tlsfGetPool, tlsfSize_eq]
  omega

theorem rel_create (h : Heap) (hf : Fits mem size) : ∃ h₀,
    tlsfCreateWithPool h mem size = some (h₀, mem) ∧
      Rel mem (tlsfGetPool mem - 8) (8 + usable size) h₀ noObjects := by
  obtain ⟨h₀, L, hrun, hp⟩ := tlsfCreateWithPool_pool h hf
  obtain ⟨n, hn⟩ : ∃ n, n = usable size := ⟨_, rfl⟩
  rw [← hn] at hp ⊢
  refine ⟨h₀, hrun, _, L, hp, rfl, fun p x hx => ?_, fun a k hu => ?_⟩
  · cases hx
  · rcases hu with ⟨-, he⟩ | hfalse
    · cases he
    · exact hfalse.elim

/-- Where objects lie. -/
structure Placed (mem : Nat) (bytes : SizeT) (h : Heap) (s : Objects) : Prop where
  apart : Apart s
  aligned : ∀ p x, s p = some x → 8 ∣ p
  above : ∀ p x, s p = some x → tlsfGetPool mem ≤ p
  below : ∀ p x, s p = some x → p + x.length ≤ mem + bytes.toNat
  contents : ∀ p x i v, s p = some x → x[i]? = some v → h.bytes (p + i) = v

theorem Rel.placed (hf : Fits mem size)
    (hrel : Rel mem (tlsfGetPool mem - 8) (8 + usable size) h s) : Placed mem size h s := by
  obtain ⟨l, L, hp, hspan, hs⟩ := hrel
  have hpool := tlsfGetPool_sub mem
  have hmin := hf.min
  have husable : usable size + tlsfSize + 16 ≤ size.toNat := by
    rw [usable]
    omega
  refine ⟨hs.apart, fun p x hx => ?_, fun p x hx => ?_, fun p x hx => ?_, fun p x i v hx hv => ?_⟩
  · exact Rel.aligned ⟨l, L, hp, hspan, hs⟩ hx
  · obtain ⟨a, n, rfl, hu, -⟩ := hs.block p x hx
    have := hu.bounds
    omega
  · obtain ⟨a, n, rfl, hu, hle, -⟩ := hs.block p x hx
    have hbounds := hu.bounds
    simp only [tlsfGetPool] at hpool hbounds
    omega
  · obtain ⟨a, n, rfl, hu, hle, hcontents⟩ := hs.block p x hx
    exact hcontents i v hv

/-- Every run of disciplined calls on a heap that was just made completes; the answers are those
of a store of objects, which lie in the pool, aligned and apart, with their contents. -/
theorem tlsf_serves (h : Heap) (hf : Fits mem size) : ∃ h₀,
    tlsfCreateWithPool h mem size = some (h₀, mem) ∧
    ∀ cs, Disciplined mem h₀ noObjects cs → ∃ h' rs s, runCalls mem h₀ cs = some (h', rs) ∧
      ServesAll noObjects cs rs s ∧ Placed mem size h' s := by
  obtain ⟨h₀, hrun, hrel⟩ := rel_create h hf
  refine ⟨h₀, hrun, fun cs hcs => ?_⟩
  obtain ⟨h', rs, s, hcalls, hall, hrel'⟩ := run_serves hrel hcs
  exact ⟨h', rs, s, hcalls, hall, hrel'.placed hf⟩

theorem fits_page : Fits 4096 65536#64 := ⟨by decide, by decide, by decide, by decide, by decide⟩

theorem disciplined_malloc (h₀ : Heap) : Disciplined 4096 h₀ noObjects [.malloc 100#64] :=
  ⟨by simp only [Allowed]; decide, fun _ _ _ _ _ => trivial⟩

theorem tlsf_serves_malloc : ∃ h₀, tlsfCreateWithPool blank 4096 65536#64 = some (h₀, 4096) ∧
    ∃ h' rs s, runCalls 4096 h₀ [.malloc 100#64] = some (h', rs) ∧
      ServesAll noObjects [.malloc 100#64] rs s ∧ Placed 4096 65536#64 h' s := by
  obtain ⟨h₀, hrun, hall⟩ := tlsf_serves blank fits_page
  exact ⟨h₀, hrun, hall _ (disciplined_malloc h₀)⟩

/-- The allocator's own checks find nothing, after any run. -/
theorem tlsf_run_checks (h : Heap) (hf : Fits mem size) : ∃ h₀,
    tlsfCreateWithPool h mem size = some (h₀, mem) ∧
    ∀ cs, Disciplined mem h₀ noObjects cs → ∃ h' rs, runCalls mem h₀ cs = some (h', rs) ∧
      tlsfCheck mem size.toNat h' = some 0 ∧
      tlsfCheckPool size.toNat h' (tlsfGetPool mem) = some 0 := by
  obtain ⟨h₀, hrun, hrel⟩ := rel_create h hf
  refine ⟨h₀, hrun, fun cs hcs => ?_⟩
  obtain ⟨h', rs, s, hcalls, -, l, L, hp, hspan, -⟩ := run_serves hrel hcs
  have hfuel : l.length < size.toNat := by
    have hlen := hp.length_lt
    have hmin := hf.min
    rw [hspan, usable] at hlen
    omega
  refine ⟨h', rs, hcalls, tlsfCheck_spec hp hfuel, ?_⟩
  have hcheck := tlsfCheckPool_spec hp hfuel
  rwa [tlsfGetPool_sub mem] at hcheck

theorem tlsf_run_checks_malloc : ∃ h₀, tlsfCreateWithPool blank 4096 65536#64 = some (h₀, 4096) ∧
    ∃ h' rs, runCalls 4096 h₀ [.malloc 100#64] = some (h', rs) ∧
      tlsfCheck 4096 65536 h' = some 0 ∧ tlsfCheckPool 65536 h' (tlsfGetPool 4096) = some 0 := by
  obtain ⟨h₀, hrun, hall⟩ := tlsf_run_checks blank fits_page
  exact ⟨h₀, hrun, hall _ (disciplined_malloc h₀)⟩

/-- The pool as a walk sees it: pointers, sizes, and whether a block is in use. -/
def walkList (fuel : Nat) (h : Heap) (pool : Nat) : Option (List (Nat × Nat × Bool)) :=
  tlsfWalkPool fuel h pool (fun ptr size used seen => some (seen ++ [(ptr, size, used)])) []

theorem walkList_eq {fuel : Nat} (hp : Pool null b h l L) (hfuel : l.length < fuel) :
    walkList fuel h (b + 8) =
      some ((places b l).map fun r => (r.1 + 16, r.2.size, !r.2.free)) := by
  rw [walkList, tlsfWalkPool_eq hp hfuel]
  have hgen : ∀ (t : List (Nat × Blk)) (seen : List (Nat × Nat × Bool)),
      t.foldlM (fun u r => some (u ++ [(r.1 + 16, r.2.size, !r.2.free)])) seen =
        some (seen ++ t.map fun r => (r.1 + 16, r.2.size, !r.2.free)) := by
    intro t
    induction t with
    | nil => intro seen; rw [List.map_nil, List.append_nil]; rfl
    | cons r t ih =>
      intro seen
      have happend := List.append_cons seen (r.1 + 16, r.2.size, !r.2.free)
        (t.map fun r => (r.1 + 16, r.2.size, !r.2.free))
      rw [List.foldlM_cons, List.map_cons, happend]
      exact ih _
  exact hgen (places b l) []

/-- A pool in which nothing is in use is one free block. -/
theorem Pool.all_free (hp : Pool null b h l L) (hspan : span l = 8 + n)
    (hno : ∀ a k, ¬ UsedIn b l a k) : l = [⟨n, true⟩] := by
  have hfree : ∀ z ∈ l, z.free = true := by
    intro z hz
    obtain ⟨l₁, l₂, rfl⟩ := List.append_of_mem hz
    obtain ⟨k, f⟩ := z
    cases f with
    | true => rfl
    | false => exact absurd (at_split.mpr ⟨l₁, l₂, rfl, rfl⟩) (hno (b + span l₁) k)
  have hco := hp.coalesced
  rcases l with _ | ⟨⟨k, f⟩, l⟩
  · rw [span_nil] at hspan
    omega
  · obtain rfl : f = true := hfree _ List.mem_cons_self
    rcases l with _ | ⟨z, l⟩
    · have hk : k = n := by
        simp only [span_cons, span_nil] at hspan
        omega
      rw [hk]
    · exact absurd ⟨rfl, hfree z (List.mem_cons_of_mem _ List.mem_cons_self)⟩ hco.2.1

/-- When a request is refused: every free block is filed in a list that also takes sizes which
are too small. -/
theorem tlsf_malloc_null_iff (h : Heap) (hf : Fits mem size) : ∃ h₀,
    tlsfCreateWithPool h mem size = some (h₀, mem) ∧
    ∀ cs, Disciplined mem h₀ noObjects cs → ∃ h' rs seen, runCalls mem h₀ cs = some (h', rs) ∧
      walkList size.toNat h' (tlsfGetPool mem) = some seen ∧
      ∀ request, Accepted request → (tlsfMalloc mem h' request = some (h', 0) ↔
        ∀ ptr n, (ptr, n, false) ∈ seen → ∃ k, k < 2 ^ 64 ∧ mappingInsert k = mappingInsert n ∧
          k < adjusted request.toNat) := by
  obtain ⟨h₀, hrun, hrel⟩ := rel_create h hf
  refine ⟨h₀, hrun, fun cs hcs => ?_⟩
  obtain ⟨h', rs, s, hcalls, -, l, L, hp, hspan, -⟩ := run_serves hrel hcs
  have hfuel : l.length < size.toNat := by
    have hlen := hp.length_lt
    have hmin := hf.min
    rw [hspan, usable] at hlen
    omega
  have hwalk := walkList_eq hp hfuel
  rw [tlsfGetPool_sub mem] at hwalk
  refine ⟨h', rs, _, hcalls, hwalk, fun request hreq => ?_⟩
  obtain ⟨hne, -⟩ := hreq.adjusted
  have hbounds := adjusted_bounds hne
  have hsearch : ∀ n, n < 2 ^ 64 → (rank (mappingInsert n) < rank (mappingSearch (adjusted request.toNat)) ↔
      ∃ k, k < 2 ^ 64 ∧ mappingInsert k = mappingInsert n ∧ k < adjusted request.toNat) := by
    intro n hn
    rw [← Nat.not_le, search_le_iff (adjusted_dvd _) (Nat.le_of_lt hbounds.2) hn]
    push Not
    exact Iff.rfl
  have hseen : ∀ ptr n, (ptr, n, false) ∈ (places (tlsfGetPool mem - 8) l).map
      (fun r => (r.1 + 16, r.2.size, !r.2.free)) ↔
      ∃ a, ptr = a + 16 ∧ FreeIn (tlsfGetPool mem - 8) l a n := by
    intro ptr n
    rw [List.mem_map]
    constructor
    · rintro ⟨⟨a, ⟨k, f⟩⟩, hr, he⟩
      simp only [Prod.mk.injEq] at he
      obtain ⟨rfl, rfl, hf'⟩ := he
      obtain rfl : f = true := by simpa using hf'
      exact ⟨a, rfl, mem_places.mp hr⟩
    · rintro ⟨a, rfl, ha⟩
      exact ⟨(a, ⟨n, true⟩), mem_places.mpr ha, rfl⟩
  have hlt : ∀ a n, FreeIn (tlsfGetPool mem - 8) l a n → n < 2 ^ 64 := fun a n hfree =>
    size_lt_64 ((hp.tiles.filed hp.room).size_lt hfree)
  constructor
  · intro hnull ptr n hin
    obtain ⟨a, -, hfree⟩ := (hseen ptr n).mp hin
    rcases tlsfMalloc_spec hp request with ⟨c, m, h'', l', L', hrun', -, -, -⟩ | ⟨-, hzero | hnone⟩
    · rw [hnull] at hrun'
      have := congrArg Prod.snd (Option.some.inj hrun')
      simp only at this
      omega
    · exact absurd hzero hne
    · exact (hsearch n (hlt a n hfree)).mp (hnone a n hfree)
  · intro hall
    rcases tlsfMalloc_spec hp request with ⟨c, m, h'', l', L', -, -, ha, -⟩ | ⟨hrun', -⟩
    · have hsmall := hall (c + 16) m ((hseen _ _).mpr ⟨c, rfl, ha.suits.filed⟩)
      have hlow := (hsearch m (hlt c m ha.suits.filed)).mpr hsmall
      exact absurd ha.suits.listed (Nat.not_le.mpr hlow)
    · exact hrun'

theorem tlsf_malloc_null_iff_malloc : ∃ h₀,
    tlsfCreateWithPool blank 4096 65536#64 = some (h₀, 4096) ∧
    ∃ h' rs seen, runCalls 4096 h₀ [.malloc 100#64] = some (h', rs) ∧
      walkList 65536 h' (tlsfGetPool 4096) = some seen ∧
      ∀ request, Accepted request → (tlsfMalloc 4096 h' request = some (h', 0) ↔
        ∀ ptr n, (ptr, n, false) ∈ seen → ∃ k, k < 2 ^ 64 ∧ mappingInsert k = mappingInsert n ∧
          k < adjusted request.toNat) := by
  obtain ⟨h₀, hrun, hall⟩ := tlsf_malloc_null_iff blank fits_page
  exact ⟨h₀, hrun, hall _ (disciplined_malloc h₀)⟩

/-- The pool can be taken away exactly when everything was given back, and the heap without it
hands nothing out. -/
theorem tlsf_remove_pool_iff (h : Heap) (hf : Fits mem size) : ∃ h₀,
    tlsfCreateWithPool h mem size = some (h₀, mem) ∧
    ∀ cs, Disciplined mem h₀ noObjects cs → ∃ h' rs s, runCalls mem h₀ cs = some (h', rs) ∧
      ServesAll noObjects cs rs s ∧
      ((∃ h'', tlsfRemovePool mem h' (tlsfGetPool mem) = some h'') ↔ s = noObjects) ∧
      ∀ h'', tlsfRemovePool mem h' (tlsfGetPool mem) = some h'' →
        ∀ request, tlsfMalloc mem h'' request = some (h'', 0) := by
  obtain ⟨h₀, hrun, hrel⟩ := rel_create h hf
  refine ⟨h₀, hrun, fun cs hcs => ?_⟩
  obtain ⟨h', rs, s, hcalls, hall, l, L, hp, hspan, hs⟩ := run_serves hrel hcs
  have hroom := hp.room.fin_le
  have hnull := hp.room.null_le
  by_cases hno : ∃ a k, UsedIn (tlsfGetPool mem - 8) l a k
  · obtain ⟨a, k, hu⟩ := hno
    have hremove := tlsfRemovePool_used hp hu
    rw [tlsfGetPool_sub] at hremove
    refine ⟨h', rs, s, hcalls, hall, iff_of_false ?_ ?_, fun h'' hsome => ?_⟩
    · rintro ⟨h'', hsome⟩
      rw [hremove] at hsome
      cases hsome
    · rintro rfl
      obtain ⟨x, hx⟩ := hs.object a k hu
      cases hx
    · rw [hremove] at hsome
      cases hsome
  · have hl := hp.all_free hspan fun a k hu => hno ⟨a, k, hu⟩
    rw [hl] at hp
    obtain ⟨h₁, hremove, hnopool⟩ := tlsfRemovePool_free hp
    rw [tlsfGetPool_sub] at hremove
    refine ⟨h', rs, s, hcalls, hall, iff_of_true ⟨h₁, hremove⟩ ?_, fun h'' hsome => ?_⟩
    · funext p
      by_contra hne
      obtain ⟨x, hx⟩ := Option.ne_none_iff_exists'.mp hne
      obtain ⟨a, n, -, hu, -⟩ := hs.block p x hx
      exact hno ⟨a, n, hu⟩
    · rw [hremove] at hsome
      obtain rfl := Option.some.inj hsome
      exact hnopool.malloc hp.room.null_pos (by omega)

theorem tlsf_remove_pool_iff_malloc : ∃ h₀,
    tlsfCreateWithPool blank 4096 65536#64 = some (h₀, 4096) ∧
    ∃ h' rs s, runCalls 4096 h₀ [.malloc 100#64] = some (h', rs) ∧
      ServesAll noObjects [.malloc 100#64] rs s ∧
      ((∃ h'', tlsfRemovePool 4096 h' (tlsfGetPool 4096) = some h'') ↔ s = noObjects) ∧
      ∀ h'', tlsfRemovePool 4096 h' (tlsfGetPool 4096) = some h'' →
        ∀ request, tlsfMalloc 4096 h'' request = some (h'', 0) := by
  obtain ⟨h₀, hrun, hall⟩ := tlsf_remove_pool_iff blank fits_page
  exact ⟨h₀, hrun, hall _ (disciplined_malloc h₀)⟩

end

end HyperCore.Tlsf
