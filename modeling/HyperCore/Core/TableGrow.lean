import HyperCore.Core.TableMap

/-!
# What mapping a range does to the tables

The invariant of a table tree (`Tables`), what a call may do to it (`Grown`), and
the two outcomes of mapping a range. The tree facts come from `RadixTable`; what is
added here is the allocator: every table below the root is a page the allocator has
marked as taken, so a page it hands out next is not a table of the tree.
-/

namespace HyperCore.TableMap

open RadixTable Bitmap PageAlloc ArchPage

/-! ## Effects on memory -/

/-- The log `l` has a write of the entry at `x`. -/
def Written (l : List Event) (x : Nat) : Prop := .leaf x ∈ l ∨ ∃ page, .link x page ∈ l

/-- The log `l` has a clear of the page around `x`. -/
def Zeroed (l : List Event) (x : Nat) : Prop := ∃ a, .zero a ∈ l ∧ a ≤ x ∧ x < a + 4096

/-- A word of memory was written, or cleared with its page, or left alone. -/
def Frame (l : List Event) (m m' : Nat → Word) : Prop :=
  ∀ x, Written l x ∨ (Zeroed l x ∧ m' x = 0) ∨ (¬ Zeroed l x ∧ m' x = m x)

theorem Written.append {l l' : List Event} {x : Nat} :
    Written (l' ++ l) x ↔ Written l' x ∨ Written l x := by
  simp only [Written, List.mem_append]
  constructor
  · rintro (h | ⟨p, h | h⟩)
    · exact h.elim (fun h => .inl (.inl h)) fun h => .inr (.inl h)
    · exact .inl (.inr ⟨p, h⟩)
    · exact .inr (.inr ⟨p, h⟩)
  · rintro ((h | ⟨p, h⟩) | (h | ⟨p, h⟩))
    · exact .inl (.inl h)
    · exact .inr ⟨p, .inl h⟩
    · exact .inl (.inr h)
    · exact .inr ⟨p, .inr h⟩

theorem Zeroed.append {l l' : List Event} {x : Nat} :
    Zeroed (l' ++ l) x ↔ Zeroed l' x ∨ Zeroed l x := by
  simp only [Zeroed, List.mem_append]
  constructor
  · rintro ⟨a, h | h, hx⟩
    · exact .inl ⟨a, h, hx⟩
    · exact .inr ⟨a, h, hx⟩
  · rintro (⟨a, h, hx⟩ | ⟨a, h, hx⟩)
    · exact ⟨a, .inl h, hx⟩
    · exact ⟨a, .inr h, hx⟩

theorem Frame.refl (m : Nat → Word) : Frame [] m m :=
  fun _ => .inr (.inr ⟨by simp [Zeroed], rfl⟩)

theorem Frame.trans {l l' : List Event} {m m' m'' : Nat → Word} (h : Frame l m m')
    (h' : Frame l' m' m'') : Frame (l' ++ l) m m'' := by
  intro x
  rw [Written.append, Zeroed.append]
  rcases h' x with hw | ⟨hz, he⟩ | ⟨hz, he⟩
  · exact .inl (.inl hw)
  · exact .inr (.inl ⟨.inl hz, he⟩)
  · rcases h x with hw | ⟨hz', he'⟩ | ⟨hz', he'⟩
    · exact .inl (.inr hw)
    · exact .inr (.inl ⟨.inr hz', he.trans he'⟩)
    · exact .inr (.inr ⟨fun hc => hc.elim hz hz', he.trans he'⟩)

/-- Writing one entry. -/
theorem Frame.store {m : Nat → Word} {a : Nat} {w : Word} {ev : Event}
    (hev : ev = .leaf a ∨ ∃ page, ev = .link a page) : Frame [ev] m (setMem m a w) := by
  intro x
  by_cases hx : x = a
  · subst hx
    rcases hev with rfl | ⟨page, rfl⟩
    · exact .inl (.inl (List.mem_singleton.mpr rfl))
    · exact .inl (.inr ⟨page, List.mem_singleton.mpr rfl⟩)
  · refine .inr (.inr ⟨?_, by simp [setMem, hx]⟩)
    rintro ⟨b, hb, -⟩
    rcases hev with rfl | ⟨page, rfl⟩ <;> cases List.mem_singleton.mp hb

/-- Clearing one page. -/
theorem Frame.clear (m : Nat → Word) (a : Nat) : Frame [.zero a] m (zeroMem m a) := by
  intro x
  by_cases hx : a ≤ x ∧ x < a + 4096
  · exact .inr (.inl ⟨⟨a, List.mem_singleton.mpr rfl, hx⟩, by simp [zeroMem, hx]⟩)
  · refine .inr (.inr ⟨?_, by simp [zeroMem, hx]⟩)
    rintro ⟨b, hb, hbx⟩
    cases List.mem_singleton.mp hb
    exact hx hbx

variable {L : Layout}

/-- The pages a call took, by its log: each was free and reachable, each linked page
was cleared first, and the bitmap gained exactly the cleared pages. -/
structure Takes (M : Mapper L) (h h' : Host) (l : List Event) : Prop where
  log : h'.log = l ++ h.log
  frame : Frame l h.mem h'.mem
  linked : ∀ {s c}, .link s c ∈ l → .zero c ∈ l
  zeroed : ∀ {c}, .zero c ∈ l → ∃ p, p < 2 * M.half ∧ c = L.physPage p ∧ bit h.bitmap p = false
  bits : ∀ n, bit h'.bitmap n = true ↔ bit h.bitmap n = true ∨ .zero (L.physPage n) ∈ l

theorem Takes.refl {M : Mapper L} (h : Host) : Takes M h h [] :=
  ⟨rfl, Frame.refl _, nofun, nofun, fun n => by simp⟩

theorem Takes.trans {M : Mapper L} {h h' h'' : Host} {l l' : List Event} (h1 : Takes M h h' l)
    (h2 : Takes M h' h'' l') : Takes M h h'' (l' ++ l) where
  log := by rw [h2.log, h1.log, List.append_assoc]
  frame := h1.frame.trans h2.frame
  linked := by
    intro s c hc
    rcases List.mem_append.mp hc with hc | hc
    · exact List.mem_append.mpr (.inl (h2.linked hc))
    · exact List.mem_append.mpr (.inr (h1.linked hc))
  zeroed := by
    intro c hc
    rcases List.mem_append.mp hc with hc | hc
    · obtain ⟨p, hp, hpc, hfree⟩ := h2.zeroed hc
      refine ⟨p, hp, hpc, ?_⟩
      cases hb : bit h.bitmap p with
      | false => rfl
      | true => rw [(h1.bits p).mpr (.inl hb)] at hfree; cases hfree
    · exact h1.zeroed hc
  bits := by
    intro n
    rw [h2.bits n, h1.bits n, List.mem_append]
    constructor
    · rintro ((hb | hc) | hc)
      · exact .inl hb
      · exact .inr (.inr hc)
      · exact .inr (.inl hc)
    · rintro (hb | hc | hc)
      · exact .inl (.inl hb)
      · exact .inr hc
      · exact .inl (.inr hc)

/-- Writing a last-level entry takes no page. -/
theorem Takes.leaf {M : Mapper L} (h : Host) (a : Nat) (w : Word) :
    Takes M h { h with mem := setMem h.mem a w, log := .leaf a :: h.log } [.leaf a] :=
  ⟨rfl, Frame.store (.inl rfl), nofun, nofun, fun n => by simp⟩

/-! ## The invariant of a tree -/

/-- The entries of the table at `b` are reached through the pointer `t`. -/
def Mapper.At (M : Mapper L) (t b : Nat) : Prop :=
  ∀ i : Fin 512, M.tr (t + 8 * i) = some (slot b i)

/-- The invariant of the table tree at `root`. -/
structure Tables (M : Mapper L) (root depth : Nat) (h : Host) : Prop where
  tree : Tree M.format h.mem root depth
  owned : ∀ {idx k b}, 0 < k → k ≤ depth → tableAt M.format h.mem root idx k = some b →
    ∃ p, p < 2 ^ 19 ∧ b = L.physPage p ∧ bit h.bitmap p = true
  root_taken : ∀ {p}, p < 2 ^ 20 → root = L.physPage p → bit h.bitmap p = true

namespace Tables

variable {M : Mapper L} {root depth : Nat} {h : Host}

/-- A free page is no table of the tree. -/
theorem fresh (ht : Tables M root depth h) {p : Nat} (hp : p < 2 ^ 20)
    (hfree : bit h.bitmap p = false) {idx : Nat → Fin 512} {k : Nat} (hk : k ≤ depth) :
    tableAt M.format h.mem root idx k ≠ some (L.physPage p) := by
  intro hb
  have hset : bit h.bitmap p = true := by
    cases k with
    | zero => exact ht.root_taken hp (Option.some.inj hb)
    | succ k =>
      obtain ⟨q, -, hq, hset⟩ := ht.owned (Nat.succ_pos k) hk hb
      rwa [L.physPage_inj hq]
  rw [hfree] at hset
  cases hset

end Tables

/-- What the rest of the hypervisor may do to a table tree: nothing. Its words keep
their values and its pages stay taken. -/
structure Untouched (M : Mapper L) (root depth : Nat) (h h' : Host) : Prop where
  words : SameOn M.format h.mem h'.mem root depth
  pages : ∀ {idx k b p}, k ≤ depth → tableAt M.format h.mem root idx k = some b → p < 2 ^ 20 →
    b = L.physPage p → bit h.bitmap p = true → bit h'.bitmap p = true

theorem Tables.untouched {M : Mapper L} {root depth : Nat} {h h' : Host}
    (ht : Tables M root depth h) (hu : Untouched M root depth h h') : Tables M root depth h' where
  tree := hu.words.tree ht.tree
  owned h0 hk hb := by
    rw [hu.words.tableAt_eq hk] at hb
    obtain ⟨p, hp, he, hset⟩ := ht.owned h0 hk hb
    exact ⟨p, hp, he, hu.pages hk hb (by omega) he hset⟩
  root_taken hp he :=
    have hb : tableAt M.format h.mem root (fun _ => 0) 0 = some root := rfl
    hu.pages (Nat.zero_le _) hb hp he (ht.root_taken hp he)

/-- A cleared root is a tree. -/
theorem Tables.of_clear {M : Mapper L} {root depth : Nat} {h : Host}
    (hz : ∀ i : Fin 512, h.mem (slot root i) = 0) (hr : root % 4096 = 0)
    (htaken : ∀ {p}, p < 2 ^ 20 → root = L.physPage p → bit h.bitmap p = true) :
    Tables M root depth h where
  tree := Tree.of_clear hz hr
  owned h0 _ hb := by
    rw [tableAt_of_clear hz h0] at hb
    cases hb
  root_taken := htaken

/-- The word at `x` belongs to a table of the tree. -/
def InTables (M : Mapper L) (root depth : Nat) (h : Host) (x : Nat) : Prop :=
  ∃ idx k b, k ≤ depth ∧ tableAt M.format h.mem root idx k = some b ∧ b ≤ x ∧ x < b + 4096

/-- The entries of a page that is no table are outside the tables. -/
theorem Tables.not_in_apart {M : Mapper L} {root depth p : Nat} {h : Host}
    (ht : Tables M root depth h)
    (hno : ∀ idx k, k ≤ depth → tableAt M.format h.mem root idx k ≠ some (L.physPage p))
    {i : Fin 512} : ¬ InTables M root depth h (slot (L.physPage p) i) := by
  rintro ⟨idx, k, b, hk, hb, hlo, hhi⟩
  have hba := ht.tree.aligned hk hb
  have hpa := L.physPage_mod p
  have hi := i.isLt
  have hbp : b = L.physPage p := by
    simp only [slot] at hlo hhi
    omega
  exact hno idx k hk (hbp ▸ hb)

/-- How a call grew the tree: the old tables stay, the tables on the prefixes in `S`
exist now and no others, every new one was free and can be reached, memory outside
the tables is as before, and `c` even pages went. -/
structure Grown (M : Mapper L) (root depth : Nat) (S : (Nat → Fin 512) → Nat → Prop) (c : Nat)
    (h h' : Host) : Prop where
  tables : Tables M root depth h'
  takes : ∃ l, Takes M h h' l
  old : ∀ {idx k b}, k ≤ depth → tableAt M.format h.mem root idx k = some b →
    tableAt M.format h'.mem root idx k = some b
  new : ∀ {idx k}, k ≤ depth → ((tableAt M.format h'.mem root idx k).isSome ↔
    (tableAt M.format h.mem root idx k).isSome ∨ S idx k)
  low : ∀ {idx k b}, k ≤ depth → tableAt M.format h'.mem root idx k = some b →
    tableAt M.format h.mem root idx k = some b ∨
      ∃ p, p < 2 * M.half ∧ b = L.physPage p ∧ bit h.bitmap p = false
  frame : ∀ {x}, ¬ InTables M root depth h' x → h'.mem x = h.mem x
  count : ∀ {n}, M.half ≤ n → evenFree h'.bitmap n + c = evenFree h.bitmap n

namespace Grown

variable {M : Mapper L} {root depth c c' : Nat} {S S' : (Nat → Fin 512) → Nat → Prop}
variable {h h' h'' : Host}

theorem refl (ht : Tables M root depth h) (hS : ∀ {idx k}, k ≤ depth → S idx k →
    (tableAt M.format h.mem root idx k).isSome) : Grown M root depth S 0 h h where
  tables := ht
  takes := ⟨[], Takes.refl h⟩
  old := fun _ hb => hb
  new := fun hk => ⟨.inl, fun hc => hc.elim id (hS hk)⟩
  low := fun _ hb => .inl hb
  frame := fun _ => rfl
  count := fun _ => rfl

/-- Taking pages only sets bits. -/
theorem bit_mono (hg : Grown M root depth S c h h') {n : Nat} (hb : bit h.bitmap n = true) :
    bit h'.bitmap n = true := by
  obtain ⟨l, hl⟩ := hg.takes
  exact (hl.bits n).mpr (.inl hb)

theorem trans (h1 : Grown M root depth S c h h') (h2 : Grown M root depth S' c' h' h'') :
    Grown M root depth (fun idx k => S idx k ∨ S' idx k) (c + c') h h'' where
  tables := h2.tables
  takes := by
    obtain ⟨l, hl⟩ := h1.takes
    obtain ⟨l', hl'⟩ := h2.takes
    exact ⟨l' ++ l, hl.trans hl'⟩
  old := fun hk hb => h2.old hk (h1.old hk hb)
  new := fun hk => by rw [h2.new hk, h1.new hk, or_assoc]
  low := by
    intro idx k b hk hb
    rcases h2.low hk hb with hb | ⟨p, hp, he, hfree⟩
    · exact h1.low hk hb
    · refine .inr ⟨p, hp, he, ?_⟩
      cases hset : bit h.bitmap p with
      | false => rfl
      | true => rw [h1.bit_mono hset] at hfree; cases hfree
  frame := by
    intro x hx
    rw [h2.frame hx]
    refine h1.frame fun ⟨idx, k, b, hk, hb, hin⟩ => hx ⟨idx, k, b, hk, h2.old hk hb, hin⟩
  count := by
    intro n hn
    have := h1.count hn
    have := h2.count hn
    omega

theorem congr (hg : Grown M root depth S c h h')
    (hS : ∀ {idx k}, k ≤ depth → ((tableAt M.format h.mem root idx k).isSome ∨ S idx k ↔
      (tableAt M.format h.mem root idx k).isSome ∨ S' idx k)) :
    Grown M root depth S' c h h' :=
  ⟨hg.tables, hg.takes, hg.old, fun hk => (hg.new hk).trans (hS hk), hg.low, hg.frame, hg.count⟩

end Grown

/-! ## One level -/

/-- With a free even page below `2 * n` the allocator takes one there. -/
theorem allocOnePage_low {bm : Bitmap} {n : Nat} (hn : n ≤ 2 ^ 19) (hpos : 0 < evenFree bm n) :
    ∃ p, p < 2 * n ∧ LeastRun bm 1 p ∧ allocOnePage bm = ((p : Int), setBits bm p 1) := by
  obtain ⟨k, hk, hb⟩ := exists_of_evenFree_pos hpos
  have hrun : FreeRun bm 1 (2 * k) := freeRun_one.mpr ⟨by omega, by simp only [totalPages]; omega, hb⟩
  rcases allocOnePage_spec bm with ⟨p, hp, he⟩ | ⟨-, hnone⟩
  · have := hp.2 _ hrun
    exact ⟨p, by omega, hp, he⟩
  · have := evenFree_pos (n := totalPages / 2) (show k < totalPages / 2 by
      simp only [totalPages]; omega) hb
    omega

/-- A free even page keeps the count positive. -/
theorem evenFree_of_leastRun {bm : Bitmap} {p n : Nat} (hrun : LeastRun bm 1 p) (hp : p < 2 * n) :
    0 < evenFree bm n := by
  obtain ⟨heven, -, hclear⟩ := freeRun_one.mp hrun.1
  refine evenFree_pos (show p / 2 < n by omega) ?_
  rw [show 2 * (p / 2) = p by omega]
  exact hclear

/-- With free even pages past `2 * n` only, the allocator takes one there. -/
theorem allocOnePage_high {bm : Bitmap} {n : Nat} (hlow : evenFree bm n = 0)
    (hpos : 0 < evenFree bm (2 ^ 19)) :
    ∃ p, p < 2 * 2 ^ 19 ∧ 2 * n ≤ p ∧ LeastRun bm 1 p ∧
      allocOnePage bm = ((p : Int), setBits bm p 1) := by
  obtain ⟨p, hp, hrun, ha⟩ := allocOnePage_low (Nat.le_refl _) hpos
  refine ⟨p, hp, Nat.le_of_not_lt fun hlt => ?_, hrun, ha⟩
  have := evenFree_of_leastRun hrun hlt
  omega

/-- The state after page `p` was taken, cleared and linked at `a`. -/
def Mapper.linkHost (M : Mapper L) (h : Host) (a p : Nat) : Host where
  mem := setMem (zeroMem h.mem (L.physPage p)) a (M.entry (L.physPage p))
  bitmap := setBits h.bitmap p 1
  log := .link a (L.physPage p) :: .zero (L.physPage p) :: h.log

section

variable {M : Mapper L} {root depth k t b c : Nat} {idx : Nat → Fin 512} {h : Host}

theorem entry_of_none (ht : Tables M root depth h) (hk : k < depth)
    (hb : tableAt M.format h.mem root idx k = some b)
    (hn : tableAt M.format h.mem root idx (k + 1) = none) : h.mem (slot b (idx k)) = 0 := by
  rw [tableAt_succ hb] at hn
  rcases ht.tree.entry hk hb (idx k) with he | he
  · exact he
  · rw [hn] at he
    cases he

/-- An entry that links a table passes the tests of the source. -/
theorem Mapper.of_next {e : Word} (hc : M.format.next e = some c) :
    M.valid e = true ∧ M.stop e = false ∧ M.base e = c := by
  simp only [Mapper.format] at hc
  split at hc
  · next he =>
    simp only [Bool.and_eq_true, Bool.not_eq_true'] at he
    exact ⟨he.1.1, he.1.2, Option.some.inj hc⟩
  · cases hc

/-- An entry that links a table is the one the mapper writes. -/
theorem Mapper.eq_entry {e : Word} (hc : M.format.next e = some c) : e = M.entry c := by
  simp only [Mapper.format] at hc
  split at hc
  · next he =>
    rw [Bool.and_eq_true, beq_iff_eq] at he
    rw [← Option.some.inj hc]
    exact he.2
  · cases hc

theorem load_at (hat : M.At t b) (i : Fin 512) (h : Host) :
    load M.tr (t + 8 * i) h = .ok (h.mem (slot b i)) h := by
  simp only [load, hat i]

theorem nextTable_hit (hat : M.At t b) (hb : tableAt M.format h.mem root idx k = some b)
    (hc : tableAt M.format h.mem root idx (k + 1) = some c) :
    M.nextTable t (idx k) h = .ok (M.tableAddr c) h := by
  obtain ⟨hv, hs, hbase⟩ := M.of_next (tableAt_succ hb ▸ hc)
  rw [Mapper.nextTable, bind_ok (load_at hat _ h)]
  simp only [hv, ↓reduceIte]
  rw [bind_ok (load_at hat _ h)]
  simp [hs, hbase, pure, EStateM.pure]

theorem nextTable_link (hat : M.At t b) {i : Fin 512} (hv : M.valid (h.mem (slot b i)) = false)
    {p : Nat} (hp : p < 2 * M.half)
    (ha : allocOnePage h.bitmap = ((p : Int), setBits h.bitmap p 1)) :
    M.nextTable t i h = .ok (M.tableAddr (L.physPage p)) (M.linkHost h (slot b i) p) := by
  have h19 : p < 2 ^ 19 := by have := M.half_le; omega
  obtain ⟨-, hs, hbase⟩ := M.entry_link (show p < 2 ^ 20 by omega)
  have htake : takePage h = .ok (p : Int) { h with bitmap := setBits h.bitmap p 1 } := by
    simp only [takePage, ha]
  have hlink : M.linkTable (t + 8 * i) h = .ok () (M.linkHost h (slot b i) p) := by
    rw [Mapper.linkTable, bind_ok htake]
    simp only [bind, EStateM.bind, clearPage, storeLink, M.tr_page hp, hat i, L.pagePhy_low h19,
      hbase, Mapper.linkHost]
  rw [Mapper.nextTable, bind_ok (load_at hat _ h)]
  simp only [hv, Bool.false_eq_true, ↓reduceIte]
  rw [bind_ok hlink, bind_ok (load_at hat _ _)]
  simp [Mapper.linkHost, setMem, hs, hbase, pure, EStateM.pure]

/-- A word outside the page and away from the entry keeps its value. -/
theorem linkHost_mem {a p x : Nat} (hx : x ≠ a) (hp : ¬ (L.physPage p ≤ x ∧ x < L.physPage p + 4096)) :
    (M.linkHost h a p).mem x = h.mem x := by
  simp only [Mapper.linkHost, setMem, hx, if_false, zeroMem, hp]

theorem linkHost_takes {a p : Nat} (hp : p < 2 * M.half) (hfree : bit h.bitmap p = false) :
    Takes M h (M.linkHost h a p) [.link a (L.physPage p), .zero (L.physPage p)] where
  log := rfl
  frame := (Frame.clear h.mem (L.physPage p)).trans (Frame.store (.inr ⟨_, rfl⟩))
  linked := by
    intro s c hc
    rcases List.mem_cons.mp hc with hc | hc
    · cases hc
      exact List.mem_cons_of_mem _ (List.mem_singleton.mpr rfl)
    · cases List.mem_singleton.mp hc
  zeroed := by
    intro c hc
    rcases List.mem_cons.mp hc with hc | hc
    · cases hc
    · cases List.mem_singleton.mp hc
      exact ⟨p, hp, rfl, hfree⟩
  bits := by
    intro n
    have h20 : p < totalPages := by
      have := M.half_le
      simp only [totalPages]
      omega
    simp only [Mapper.linkHost, bit_setBits_one h20, Bool.or_eq_true, decide_eq_true_eq,
      List.mem_cons, reduceCtorEq, false_or, List.not_mem_nil, or_false, Event.zero.injEq]
    constructor
    · rintro (rfl | hb)
      · exact .inr rfl
      · exact .inl hb
    · rintro (hb | he)
      · exact .inr hb
      · exact .inl (L.physPage_inj he)

/-- Linking a free page extends the tree. -/
theorem linkHost_extends (ht : Tables M root depth h) (hk : k < depth)
    (hb : tableAt M.format h.mem root idx k = some b)
    (hn : tableAt M.format h.mem root idx (k + 1) = none) {p : Nat} (hp : p < 2 * M.half)
    (hfree : bit h.bitmap p = false) :
    Extends M.format h.mem (M.linkHost h (slot b (idx k)) p).mem root depth idx k b
      (L.physPage p) := by
  have h20 : p < 2 ^ 20 := by have := M.half_le; omega
  have hba := ht.tree.aligned (Nat.le_of_lt hk) hb
  have hpa := L.physPage_mod p
  obtain ⟨hv, hs, hbase⟩ := M.entry_link h20
  have hfresh : ∀ {idx j}, j ≤ depth → tableAt M.format h.mem root idx j ≠ some (L.physPage p) :=
    fun hj => ht.fresh h20 hfree hj
  have hbp : b ≠ L.physPage p := fun he => hfresh (Nat.le_of_lt hk) (he ▸ hb)
  refine ⟨hk, hb, entry_of_none ht hk hb hn, ?_, fun i => ?_, hpa, hfresh, ?_⟩
  · simp [Mapper.linkHost, setMem, Mapper.format, hv, hs, hbase]
  · have hne : slot (L.physPage p) i ≠ slot b (idx k) := fun he => hbp (slot_inj hpa hba he).1.symm
    have hin : L.physPage p ≤ slot (L.physPage p) i ∧
        slot (L.physPage p) i < L.physPage p + 4096 := by
      have := i.isLt
      simp only [slot]
      omega
    simp only [Mapper.linkHost, setMem, hne, if_false, zeroMem, hin, and_self, if_true]
    rfl
  · intro idx' j b' hj hb' i hor
    have hb'a := ht.tree.aligned hj hb'
    refine linkHost_mem (fun he => ?_) fun hin => ?_
    · obtain ⟨h1, h2⟩ := slot_inj hb'a hba he
      exact hor.elim (fun hc => hc h1) fun hc => hc h2
    · have := i.isLt
      have he : b' = L.physPage p := by
        simp only [slot] at hin
        omega
      exact hfresh hj (he ▸ hb')

/-- One missing level: the tree grows by the table on the path of `idx`. -/
theorem linkHost_grown (ht : Tables M root depth h) (hk : k < depth)
    (hb : tableAt M.format h.mem root idx k = some b)
    (hn : tableAt M.format h.mem root idx (k + 1) = none) {p : Nat} (hp : p < 2 * M.half)
    (hrun : LeastRun h.bitmap 1 p) :
    Grown M root depth (fun idx' j => j = k + 1 ∧ AgreeTo (k + 1) idx' idx) 1 h
      (M.linkHost h (slot b (idx k)) p) := by
  have hfree := (freeRun_one.mp hrun.1).2.2
  have hext := linkHost_extends ht hk hb hn hp hfree
  have htakes := linkHost_takes (a := slot b (idx k)) hp hfree
  have hat : ∀ {idx' j}, j ≤ depth →
      tableAt M.format (M.linkHost h (slot b (idx k)) p).mem root idx' j =
        if j = k + 1 ∧ AgreeTo (k + 1) idx' idx then some (L.physPage p)
        else tableAt M.format h.mem root idx' j := fun hj => hext.tableAt_eq ht.tree hj
  refine ⟨⟨hext.tree ht.tree, ?_, ?_⟩, ⟨_, htakes⟩, ?_, ?_, ?_, ?_, ?_⟩
  · intro idx' j b' h0 hj hb'
    rw [hat hj] at hb'
    split at hb'
    · have := M.half_le
      refine ⟨p, by omega, (Option.some.inj hb').symm, (htakes.bits p).mpr (.inr ?_)⟩
      exact List.mem_cons_of_mem _ (List.mem_singleton.mpr rfl)
    · obtain ⟨q, hq, he, hset⟩ := ht.owned h0 hj hb'
      exact ⟨q, hq, he, (htakes.bits q).mpr (.inl hset)⟩
  · intro q hq he
    exact (htakes.bits q).mpr (.inl (ht.root_taken hq he))
  · intro idx' j b' hj hb'
    rw [hat hj, if_neg ?_]
    · exact hb'
    · rintro ⟨rfl, hag⟩
      rw [tableAt_congr hag, hn] at hb'
      cases hb'
  · intro idx' j hj
    rw [hat hj]
    split
    · next hc => simp [hc]
    · next hc => simp [hc]
  · intro idx' j b' hj hb'
    rw [hat hj] at hb'
    split at hb'
    · exact .inr ⟨p, hp, (Option.some.inj hb').symm, hfree⟩
    · exact .inl hb'
  · intro x hx
    have hin : ∀ {j c}, j ≤ depth →
        tableAt M.format (M.linkHost h (slot b (idx k)) p).mem root idx j = some c →
        ¬ (c ≤ x ∧ x < c + 4096) := fun hj hc hcx => hx ⟨idx, _, _, hj, hc, hcx⟩
    have hparent := hin (Nat.le_of_lt hk) (by rw [hat (Nat.le_of_lt hk), if_neg (by omega)]; exact hb)
    have hchild := hin hk (by rw [hat hk, if_pos ⟨rfl, AgreeTo.refl _ _⟩])
    refine linkHost_mem (fun he => hparent ?_) hchild
    have := (idx k).isLt
    rw [he, slot]
    omega
  · intro n hnn
    have := evenFree_setBits hrun.1 n
    rw [if_pos (by omega)] at this
    simpa only [Mapper.linkHost] using this

/-- The walks of `h'` find what those of `h` found. -/
def SameWalks (M : Mapper L) (root depth : Nat) (h h' : Host) : Prop :=
  ∀ {O : Type} (leaf : Word → Option O), leaf 0 = none → ∀ idx,
    lookup M.format leaf h'.mem root depth idx = lookup M.format leaf h.mem root depth idx

/-- One level of the descent, with a page to take if one is needed. -/
theorem nextTable_good (ht : Tables M root depth h) (hk : k < depth) (hat : M.At t b)
    (hb : tableAt M.format h.mem root idx k = some b)
    (hsee : ∀ {c}, tableAt M.format h.mem root idx (k + 1) = some c → M.At (M.tableAddr c) c)
    (hfree : tableAt M.format h.mem root idx (k + 1) = none → 0 < evenFree h.bitmap M.half) :
    ∃ h' c, M.nextTable t (idx k) h = .ok (M.tableAddr c) h' ∧
      tableAt M.format h'.mem root idx (k + 1) = some c ∧ M.At (M.tableAddr c) c ∧
      Grown M root depth (fun idx' j => j = k + 1 ∧ AgreeTo (k + 1) idx' idx)
        (if (tableAt M.format h.mem root idx (k + 1)).isNone then 1 else 0) h h' ∧
      SameWalks M root depth h h' := by
  cases hc : tableAt M.format h.mem root idx (k + 1) with
  | some c =>
    refine ⟨h, c, nextTable_hit hat hb hc, hc, hsee hc, Grown.refl ht ?_, fun _ _ _ => rfl⟩
    rintro idx' j - ⟨rfl, hag⟩
    rw [tableAt_congr hag, hc]
    rfl
  | none =>
    have hle : M.half ≤ 2 ^ 19 := Nat.le_trans M.half_le (by decide)
    obtain ⟨p, hp, hrun, halloc⟩ := allocOnePage_low hle (hfree hc)
    have hv : M.valid (h.mem (slot b (idx k))) = false := by
      rw [entry_of_none ht hk hb hc]
      exact M.valid_zero
    have hext := linkHost_extends ht hk hb hc hp (freeRun_one.mp hrun.1).2.2
    refine ⟨_, _, nextTable_link hat hv hp halloc, ?_, M.tr_table hp,
      linkHost_grown ht hk hb hc hp hrun, fun leaf h0 idx' => hext.lookup_eq h0 ht.tree⟩
    rw [hext.tableAt_eq ht.tree hk, if_pos ⟨rfl, AgreeTo.refl _ _⟩]

end

/-! ## One page -/

/-- The number of tables missing on the first `k` levels of the path of `idx`. -/
def missing (M : Mapper L) (root : Nat) (h : Host) (idx : Nat → Fin 512) (k : Nat) : Nat :=
  (List.range k).countP fun j => (tableAt M.format h.mem root idx (j + 1)).isNone

/-- The tables on the path of `idx` can be reached. -/
def Sees (M : Mapper L) (root depth : Nat) (h : Host) (idx : Nat → Fin 512) : Prop :=
  ∀ j b, 0 < j → j ≤ depth → tableAt M.format h.mem root idx j = some b → M.At (M.tableAddr b) b

section

variable {M : Mapper L} {root depth rt k : Nat} {idx : Nat → Fin 512} {h h' : Host}

theorem missing_succ : missing M root h idx (k + 1) = missing M root h idx k +
    if (tableAt M.format h.mem root idx (k + 1)).isNone then 1 else 0 := by
  simp only [missing, List.range_succ, List.countP_append, List.countP_singleton]

theorem Sees.grown {S : (Nat → Fin 512) → Nat → Prop} {c : Nat} {idx' : Nat → Fin 512}
    (hs : Sees M root depth h idx') (hg : Grown M root depth S c h h') :
    Sees M root depth h' idx' := by
  intro j b h0 hj hb
  rcases hg.low hj hb with hb | ⟨p, hp, rfl, -⟩
  · exact hs j b h0 hj hb
  · exact M.tr_table hp

/-- The descent to level `k`, with enough pages for the tables it misses. -/
theorem descend_good (ht : Tables M root depth h) (hroot : M.At rt root)
    (hsee : Sees M root depth h idx) (hk : k ≤ depth)
    (hfree : missing M root h idx k ≤ evenFree h.bitmap M.half) :
    ∃ h' t b, M.descend rt idx k h = .ok t h' ∧
      tableAt M.format h'.mem root idx k = some b ∧ M.At t b ∧
      Grown M root depth (fun idx' j => j ≤ k ∧ AgreeTo j idx' idx) (missing M root h idx k) h h' ∧
      SameWalks M root depth h h' := by
  induction k with
  | zero =>
    refine ⟨h, rt, root, rfl, rfl, hroot, Grown.refl ht ?_, fun _ _ _ => rfl⟩
    rintro idx' j - ⟨hj, -⟩
    rw [Nat.le_zero.mp hj]
    rfl
  | succ k ih =>
    rw [missing_succ] at hfree ⊢
    obtain ⟨h₁, t, b, hrun, hb, hat, hg, hw⟩ := ih (Nat.le_of_succ_le hk) (by omega)
    -- the table at level `k + 1` is there now exactly if it was there before
    have hiff := @hg.new idx (k + 1) hk
    have hno : ¬ (k + 1 ≤ k ∧ AgreeTo (k + 1) idx idx) := fun hc => Nat.not_succ_le_self k hc.1
    have hsame : (tableAt M.format h₁.mem root idx (k + 1)).isNone =
        (tableAt M.format h.mem root idx (k + 1)).isNone := by
      rw [← Option.not_isSome, ← Option.not_isSome]
      exact congrArg _ (Bool.eq_iff_iff.mpr (hiff.trans (or_iff_left hno)))
    have hcount := hg.count (Nat.le_refl M.half)
    obtain ⟨h₂, c, hrun', hc, hat', hg', hw'⟩ := nextTable_good hg.tables hk hat hb
      (hsee.grown hg _ _ (Nat.succ_pos k) hk) (fun hn => by
        have : (tableAt M.format h.mem root idx (k + 1)).isNone = true := by rw [← hsame, hn]; rfl
        rw [if_pos this] at hfree
        omega)
    rw [hsame] at hg'
    refine ⟨h₂, _, c, ?_, hc, hat', (hg.trans hg').congr ?_, fun leaf h0 idx' => ?_⟩
    · rw [Mapper.descend, bind_ok hrun, hrun']
    · intro idx' j hj
      refine or_congr_right ⟨?_, ?_⟩
      · rintro (⟨hle, hag⟩ | ⟨rfl, hag⟩)
        · exact ⟨Nat.le_succ_of_le hle, hag⟩
        · exact ⟨Nat.le_refl _, hag⟩
      · rintro ⟨hle, hag⟩
        rcases Nat.lt_or_ge k j with hlt | hge
        · cases Nat.le_antisymm hle hlt
          exact .inr ⟨rfl, hag⟩
        · exact .inl ⟨hge, hag⟩
    · rw [hw' leaf h0, hw leaf h0]

/-- Writing one last-level entry. -/
theorem storeLeaf_stores {t b : Nat} (ht : Tables M root depth h) (hat : M.At t b)
    (hb : tableAt M.format h.mem root idx depth = some b) (e : Word) :
    ∃ h', storeLeaf M.tr (t + 8 * idx depth) e h = .ok () h' ∧
      h'.log = .leaf (slot b (idx depth)) :: h.log ∧ h'.mem (slot b (idx depth)) = e ∧
      Stores M.format h.mem h'.mem root depth idx b ∧
      Grown M root depth (fun _ _ => False) 0 h h' := by
  have hba := ht.tree.aligned (Nat.le_refl _) hb
  have hst : Stores M.format h.mem (setMem h.mem (slot b (idx depth)) e) root depth idx b := by
    refine ⟨hb, ?_⟩
    intro idx' j b' hj hb' i hor
    refine if_neg fun he => ?_
    obtain ⟨h1, h2⟩ := slot_inj (ht.tree.aligned hj hb') hba he
    exact hor.elim (fun hc => hc h1) fun hc => hc h2
  have hat' : ∀ {idx' j}, j ≤ depth →
      tableAt M.format (setMem h.mem (slot b (idx depth)) e) root idx' j =
        tableAt M.format h.mem root idx' j := fun hj => hst.tableAt_eq ht.tree hj
  refine ⟨⟨setMem h.mem (slot b (idx depth)) e, h.bitmap, .leaf (slot b (idx depth)) :: h.log⟩,
    by simp only [storeLeaf, hat (idx depth)], rfl, if_pos rfl, hst, ?_⟩
  refine ⟨⟨hst.tree ht.tree, fun h0 hj hb' => ?_, ht.root_taken⟩, ⟨_, Takes.leaf h _ e⟩,
    fun hj hb' => ?_, fun hj => ?_, fun hj hb' => ?_, fun hx => ?_, fun _ => rfl⟩
  · exact ht.owned h0 hj (hat' hj ▸ hb')
  · rw [hat' hj]
    exact hb'
  · rw [hat' hj, or_false]
  · exact .inl (hat' hj ▸ hb')
  · refine if_neg fun he => hx ⟨idx, depth, b, Nat.le_refl _, hat' (Nat.le_refl _) ▸ hb, ?_⟩
    have := (idx depth).isLt
    rw [he, slot]
    omega

/-- Mapping one page. -/
theorem mapPage_good (ht : Tables M root depth h) (hroot : M.At rt root)
    (hsee : Sees M root depth h idx) (e : Word)
    (hfree : missing M root h idx depth ≤ evenFree h.bitmap M.half) :
    ∃ h' b l, M.mapPage rt depth idx e h = .ok () h' ∧
      tableAt M.format h'.mem root idx depth = some b ∧
      h'.log = .leaf (slot b (idx depth)) :: l ++ h.log ∧ (∀ ev ∈ l, ev.OfTable) ∧
      Grown M root depth (fun idx' j => AgreeTo j idx' idx) (missing M root h idx depth) h h' ∧
      ∀ {O : Type} (leaf : Word → Option O), leaf 0 = none → ∀ idx',
        lookup M.format leaf h'.mem root depth idx' =
          if AgreeTo (depth + 1) idx' idx then leaf e
          else lookup M.format leaf h.mem root depth idx' := by
  obtain ⟨h₁, t, b, hrun, hb, hat, hg, hw⟩ := descend_good ht hroot hsee (Nat.le_refl _) hfree
  obtain ⟨l, hl, hP⟩ := M.logs_descend rt idx depth _ _ _ hrun
  obtain ⟨h₂, hrun', hlog, he, hst, hg'⟩ := storeLeaf_stores hg.tables hat hb e
  refine ⟨h₂, b, l, ?_, hst.tableAt_eq hg.tables.tree (Nat.le_refl _) ▸ hb, ?_, hP, ?_, ?_⟩
  · rw [Mapper.mapPage, bind_ok hrun, hrun']
  · rw [hlog, hl]
    rfl
  · refine (hg.trans hg').congr fun {idx' j} hj => or_congr_right ?_
    exact ⟨fun hc => hc.elim (fun hc => hc.2) False.elim, fun hag => .inl ⟨hj, hag⟩⟩
  · intro O leaf h0 idx'
    rw [hst.lookup_eq hg.tables.tree, he, hw leaf h0]

end

/-! ## A range of pages -/

/-- The tables the first `n` pages of a range still lack. A table that several pages
share is counted for the first of them. -/
def needed (M : Mapper L) (root depth : Nat) (h : Host) (idx : Nat → Nat → Fin 512) : Nat → Nat
  | 0 => 0
  | n + 1 => needed M root depth h idx n + (List.range depth).countP fun j =>
      (tableAt M.format h.mem root (idx n) (j + 1)).isNone &&
        !(List.range n).any fun i => decide (AgreeTo (j + 1) (idx n) (idx i))

section

variable {M : Mapper L} {root depth rt : Nat} {h h' : Host} {idx : Nat → Nat → Fin 512}

/-- A page lacks at most one table per level. -/
theorem needed_le (n : Nat) : needed M root depth h idx n ≤ depth * n := by
  induction n with
  | zero => exact Nat.zero_le _
  | succ n ih =>
    rw [needed, Nat.mul_succ]
    refine Nat.add_le_add ih (Nat.le_trans List.countP_le_length ?_)
    exact Nat.le_of_eq List.length_range

/-- A page that shares all its tables with the page before lacks none of its own. So
only the first page and those where a new last-level table starts count. -/
theorem needed_le_breaks {starts : Nat → Bool}
    (hsame : ∀ i, starts i = false → AgreeTo depth (idx (i + 1)) (idx i)) (n : Nat) :
    needed M root depth h idx (n + 1) ≤ depth * (1 + (List.range n).countP starts) := by
  have hone : ∀ {p : Nat → Bool}, (List.range depth).countP p ≤ depth := by
    intro p
    exact Nat.le_trans List.countP_le_length (Nat.le_of_eq List.length_range)
  induction n with
  | zero =>
    rw [needed, needed, Nat.zero_add]
    simpa using hone
  | succ n ih =>
    rw [needed, List.range_succ, List.countP_append, List.countP_singleton]
    cases hs : starts n with
    | true =>
      simp only [if_true]
      rw [show 1 + ((List.range n).countP starts + 1) = 1 + (List.range n).countP starts + 1 by omega,
        Nat.mul_succ]
      exact Nat.add_le_add ih hone
    | false =>
      simp only [Bool.false_eq_true, if_false, Nat.add_zero]
      refine Nat.le_trans (Nat.le_of_eq ?_) ih
      refine Nat.add_eq_left.mpr (List.countP_eq_zero.mpr fun j hj hc => ?_)
      rw [Bool.and_eq_true, Bool.not_eq_true', List.any_eq_false] at hc
      refine hc.2 n (List.mem_append.mpr (.inr (List.mem_singleton.mpr rfl))) (decide_eq_true ?_)
      exact (hsame n hs).mono (Nat.succ_le_of_lt (List.mem_range.mp hj))

/-- What page `n` misses once the pages before it are mapped. -/
theorem missing_grown {n c : Nat}
    (hg : Grown M root depth (fun idx' j => ∃ i, i < n ∧ AgreeTo j idx' (idx i)) c h h') :
    needed M root depth h idx (n + 1) =
      needed M root depth h idx n + missing M root h' (idx n) depth := by
  rw [needed, missing]
  congr 1
  refine List.countP_congr fun j hj => ?_
  have hnew := @hg.new (idx n) (j + 1) (Nat.succ_le_of_lt (List.mem_range.mp hj))
  simp only [Bool.and_eq_true, Bool.not_eq_true', List.any_eq_false, List.mem_range,
    decide_eq_true_eq, Option.isNone_iff_eq_none, ← Option.not_isSome_iff_eq_none, hnew, not_or,
    not_exists, not_and]

/-- The first page lacks what is missing on its path. -/
theorem missing_first (ht : Tables M root depth h) :
    needed M root depth h idx 1 = missing M root h (idx 0) depth := by
  have h0 : Grown M root depth (fun idx' j => ∃ i, i < 0 ∧ AgreeTo j idx' (idx i)) 0 h h :=
    Grown.refl ht fun _ ⟨_, hi, _⟩ => nomatch hi
  rw [missing_grown h0, needed, Nat.zero_add]

/-- Two pages, one after the other. -/
def pairOf (idxA idxB : Nat → Fin 512) : Nat → Nat → Fin 512
  | 0 => idxA
  | _ + 1 => idxB

theorem needed_pair {c : Nat} {idxA idxB : Nat → Fin 512} (ht : Tables M root depth h)
    (hg : Grown M root depth (fun idx' j => AgreeTo j idx' idxA) c h h') :
    needed M root depth h (pairOf idxA idxB) 2 =
      missing M root h idxA depth + missing M root h' idxB depth := by
  have h1 : Grown M root depth (fun idx' j => ∃ i, i < 1 ∧ AgreeTo j idx' (pairOf idxA idxB i))
      c h h' := by
    refine hg.congr fun _ => or_congr_right ⟨fun hag => ⟨0, Nat.one_pos, hag⟩, ?_⟩
    rintro ⟨i, hi, hag⟩
    rw [Nat.lt_one_iff.mp hi] at hag
    exact hag
  rw [missing_grown h1, missing_first ht]
  rfl

/-- With enough reachable pages for the missing tables, mapping a range changes no walk
but those of its pages; pages with distinct indices then walk to their entries. -/
theorem mapPages_good (ht : Tables M root depth h) (hroot : M.At rt root) (e : Nat → Word)
    {n : Nat} (hsee : ∀ i, i < n → Sees M root depth h (idx i))
    (hfree : needed M root depth h idx n ≤ evenFree h.bitmap M.half) :
    ∃ h', M.mapPages rt depth idx e n h = .ok () h' ∧
      Grown M root depth (fun idx' j => ∃ i, i < n ∧ AgreeTo j idx' (idx i))
        (needed M root depth h idx n) h h' ∧
      ∀ {O : Type} (leaf : Word → Option O), leaf 0 = none →
        ((∀ i j, i < j → j < n → ¬ AgreeTo (depth + 1) (idx i) (idx j)) →
          ∀ i, i < n → lookup M.format leaf h'.mem root depth (idx i) = leaf (e i)) ∧
        ∀ idx', (∀ i, i < n → ¬ AgreeTo (depth + 1) idx' (idx i)) →
          lookup M.format leaf h'.mem root depth idx' =
            lookup M.format leaf h.mem root depth idx' := by
  induction n with
  | zero =>
    refine ⟨h, rfl, Grown.refl ht ?_, fun _ _ => ⟨fun _ => nofun, fun _ _ => rfl⟩⟩
    rintro idx' k - ⟨i, hi, -⟩
    cases hi
  | succ n ih =>
    obtain ⟨h₁, hrun, hg, hw⟩ := ih (fun i hi => hsee i (Nat.lt_succ_of_lt hi))
      (by rw [needed] at hfree; omega)
    have hmiss := missing_grown hg
    have hcount := hg.count (Nat.le_refl M.half)
    have hsee' : Sees M root depth h₁ (idx n) := Sees.grown (hsee n (Nat.lt_succ_self n)) hg
    obtain ⟨h₂, b, l, hrun', -, -, -, hg', hw'⟩ := mapPage_good hg.tables hroot hsee' (e n)
      (by omega)
    refine ⟨h₂, ?_, ?_, fun leaf h0 => ⟨fun hdist i hi => ?_, fun idx' hno => ?_⟩⟩
    · rw [Mapper.mapPages, forRounds, ← Mapper.mapPages, bind_ok hrun, hrun']
    · rw [hmiss]
      exact (hg.trans hg').congr fun _ => or_congr_right Nat.exists_lt_succ_right.symm
    · rw [hw' leaf h0]
      rcases Nat.lt_or_ge i n with hlt | hge
      · rw [if_neg (hdist i n hlt (Nat.lt_succ_self n))]
        exact (hw leaf h0).1 (fun i j hij hj => hdist i j hij (Nat.lt_succ_of_lt hj)) i hlt
      · rw [Nat.le_antisymm (Nat.le_of_lt_succ hi) hge, if_pos (AgreeTo.refl _ _)]
    · rw [hw' leaf h0, if_neg (hno n (Nat.lt_succ_self n)),
        (hw leaf h0).2 idx' fun i hi => hno i (Nat.lt_succ_of_lt hi)]

end

/-! ## Too few pages the mapper can reach -/

/-- Pages past `2 * half` cannot be accessed at all. -/
def Mapper.FaultsHigh (M : Mapper L) : Prop :=
  ∀ p : Nat, 2 * M.half ≤ p → p < 2 ^ 20 → M.tr (M.pageAddr p) = none

/-- The call did not return, or it linked something that is no page of the pool. Where
pages out of reach fault, only the first is possible. -/
def Spoiled (M : Mapper L) {α : Type} (h : Host) : EStateM.Result Stop Host α → Prop
  | .error _ _ => True
  | .ok _ h' => ¬ M.FaultsHigh ∧ ∃ l, h'.log = l ++ h.log ∧
      ∃ s c, .link s c ∈ l ∧ ∀ q, q < 2 ^ 20 → c ≠ L.physPage q

theorem Spoiled.bind {M : Mapper L} {α β : Type} {x : HostM α} {f : α → HostM β} {h h₁ : Host}
    {P : Event → Prop} (hx : Spoiled M h (x h₁)) (hf : ∀ a, Logs P (f a)) :
    Spoiled M h ((x >>= f) h₁) := by
  cases hr : x h₁ with
  | error e h₂ =>
    rw [bind_error hr]
    exact trivial
  | ok a h₂ =>
    rw [hr] at hx
    rw [bind_ok hr]
    obtain ⟨hfault, l, hl, s, c, hlink, hno⟩ := hx
    cases hr' : f a h₂ with
    | error e h₃ => exact trivial
    | ok b h₃ =>
      obtain ⟨l', hl', -⟩ := hf a _ _ _ hr'
      exact ⟨hfault, l' ++ l, by rw [hl', hl, List.append_assoc], s, c,
        List.mem_append.mpr (.inr hlink), hno⟩

theorem Spoiled.of_ok {M : Mapper L} {α β : Type} {x : HostM α} {f : α → HostM β}
    {h h₁ h₂ : Host} {a : α} (hx : x h₁ = .ok a h₂) (hf : Spoiled M h (f a h₂)) :
    Spoiled M h ((x >>= f) h₁) := by
  rw [bind_ok hx]
  exact hf

section

variable {M : Mapper L} {root depth rt k t b : Nat} {h h₁ : Host} {idx : Nat → Fin 512}

/-- No free even page below `2 * half`, so the page taken is past it. -/
theorem linkTable_spoiled {l : List Event} (hlog : h₁.log = l ++ h.log)
    (hlow : evenFree h₁.bitmap M.half = 0) (hsome : 0 < evenFree h₁.bitmap (2 ^ 19)) (va : Nat) :
    Spoiled M h (M.linkTable va h₁) := by
  obtain ⟨p, hp, hge, hrun, ha⟩ := allocOnePage_high hlow hsome
  have htake : takePage h₁ = .ok (p : Int) { h₁ with bitmap := setBits h₁.bitmap p 1 } := by
    simp only [takePage, ha]
  refine Spoiled.of_ok htake ?_
  simp only [bind, EStateM.bind, clearPage, storeLink]
  cases htr : M.tr (M.pageAddr p) with
  | none => exact trivial
  | some a =>
    have hno := (M.high hge (by omega)).resolve_left (by simp [htr])
    cases M.tr va with
    | none => exact trivial
    | some s =>
      refine ⟨fun hf => ?_, .link s (M.base (M.entry (L.pagePhy p))) :: .zero a :: l, ?_, s, _,
        List.mem_cons_self, hno⟩
      · rw [hf p hge (by omega)] at htr
        cases htr
      simp only [hlog, List.cons_append]

theorem nextTable_spoiled {l : List Event} (hlog : h₁.log = l ++ h.log)
    (ht : Tables M root depth h₁) (hk : k < depth) (hat : M.At t b)
    (hb : tableAt M.format h₁.mem root idx k = some b)
    (hn : tableAt M.format h₁.mem root idx (k + 1) = none)
    (hlow : evenFree h₁.bitmap M.half = 0) (hsome : 0 < evenFree h₁.bitmap (2 ^ 19)) :
    Spoiled M h (M.nextTable t (idx k) h₁) := by
  have hv : M.valid (h₁.mem (slot b (idx k))) = false := by
    rw [entry_of_none ht hk hb hn]
    exact M.valid_zero
  rw [Mapper.nextTable]
  refine Spoiled.of_ok (load_at hat _ h₁) ?_
  simp only [hv, Bool.false_eq_true, ↓reduceIte]
  refine (linkTable_spoiled hlog hlow hsome _).bind (P := Event.OfTable) fun _ => ?_
  refine (logs_load _ _).bind fun e => ?_
  split <;> exact Logs.pure _

theorem descend_spoiled (ht : Tables M root depth h) (hroot : M.At rt root)
    (hsee : Sees M root depth h idx) {l : List Event} {h₀ : Host} (hlog : h.log = l ++ h₀.log)
    (hk : k ≤ depth) (hlow : evenFree h.bitmap M.half < missing M root h idx k)
    (hsome : missing M root h idx k ≤ evenFree h.bitmap (2 ^ 19)) :
    Spoiled M h₀ (M.descend rt idx k h) := by
  induction k with
  | zero => exact absurd hlow (Nat.not_lt_zero _)
  | succ k ih =>
    rw [missing_succ] at hlow hsome
    by_cases hlt : evenFree h.bitmap M.half < missing M root h idx k
    · exact (ih (Nat.le_of_succ_le hk) hlt (by omega)).bind fun t => M.logs_nextTable t _
    · -- the first `k` levels use up the reachable pages, and level `k + 1` is missing
      obtain ⟨h₁, t, b, hrun, hb, hat, hg, -⟩ :=
        descend_good ht hroot hsee (Nat.le_of_succ_le hk) (Nat.le_of_not_lt hlt)
      obtain ⟨l', hl'⟩ := hg.takes
      have hc1 := hg.count (Nat.le_refl M.half)
      have hc2 := hg.count (n := 2 ^ 19) (Nat.le_trans M.half_le (by decide))
      have hnone : (tableAt M.format h.mem root idx (k + 1)).isNone = true := by
        refine Classical.byContradiction fun hc => ?_
        rw [if_neg hc] at hlow
        omega
      rw [if_pos hnone] at hlow hsome
      have hn : tableAt M.format h₁.mem root idx (k + 1) = none := by
        rw [← Option.not_isSome_iff_eq_none, hg.new hk, Option.isSome_iff_ne_none]
        rintro (hc | hc)
        · exact hc (Option.isNone_iff_eq_none.mp hnone)
        · omega
      rw [Mapper.descend]
      refine Spoiled.of_ok hrun ?_
      exact nextTable_spoiled (l := l' ++ l) (by rw [hl'.log, hlog, List.append_assoc]) hg.tables hk
        hat hb hn (by omega) (by omega)

end

/-- With fewer reachable pages than missing tables the call does not succeed. -/
theorem mapPages_spoiled {M : Mapper L} {root depth rt : Nat} {h : Host}
    {idx : Nat → Nat → Fin 512} (ht : Tables M root depth h) (hroot : M.At rt root)
    (e : Nat → Word) {n : Nat} (hsee : ∀ i, i < n → Sees M root depth h (idx i))
    (hlow : evenFree h.bitmap M.half < needed M root depth h idx n)
    (hsome : needed M root depth h idx n ≤ evenFree h.bitmap (2 ^ 19)) :
    Spoiled M h (M.mapPages rt depth idx e n h) := by
  induction n with
  | zero => exact absurd hlow (Nat.not_lt_zero _)
  | succ n ih =>
    have hsee' : ∀ i, i < n → Sees M root depth h (idx i) :=
      fun i hi => hsee i (Nat.lt_succ_of_lt hi)
    rw [Mapper.mapPages, forRounds, ← Mapper.mapPages]
    by_cases hlt : evenFree h.bitmap M.half < needed M root depth h idx n
    · refine (ih hsee' hlt ?_).bind fun _ => M.logs_mapPage _ _ _ _
      rw [needed] at hsome
      omega
    · obtain ⟨h₁, hrun, hg, -⟩ := mapPages_good ht hroot e hsee' (Nat.le_of_not_lt hlt)
      obtain ⟨l, hl⟩ := hg.takes
      have hc1 := hg.count (Nat.le_refl M.half)
      have hc2 := hg.count (n := 2 ^ 19) (Nat.le_trans M.half_le (by decide))
      rw [missing_grown hg] at hlow hsome
      have hsee₁ : Sees M root depth h₁ (idx n) := Sees.grown (hsee n (Nat.lt_succ_self n)) hg
      refine Spoiled.of_ok hrun ?_
      exact (descend_spoiled hg.tables hroot hsee₁ hl.log (Nat.le_refl _) (by omega)
        (by omega)).bind fun t => logs_storeLeaf _ _ _

/-! ## Newly linked pages -/

/-- Every newly linked table page was free, and its words are zero apart from the
entries the call wrote. -/
def FreshLinks (L : Layout) (h h' : Host) : Prop :=
  ∃ l, h'.log = l ++ h.log ∧ ∀ s c, .link s c ∈ l →
    (∃ p, p < totalPages ∧ c = L.physPage p ∧ bit h.bitmap p = false) ∧
    ∀ i : Fin 512, h'.mem (slot c i) = 0 ∨ Written l (slot c i)

/-- Cleared pages that were linked hold only what was written after. -/
theorem Takes.freshLinks {M : Mapper L} {h h' : Host} {l : List Event}
    (ht : Takes M h h' l) : FreshLinks L h h' := by
  refine ⟨l, ht.log, fun s c hc => ?_⟩
  have hz := ht.linked hc
  obtain ⟨p, hp, he, hfree⟩ := ht.zeroed hz
  have hhalf := M.half_le
  refine ⟨⟨p, by simp only [totalPages]; omega, he, hfree⟩, fun i => ?_⟩
  have hin : Zeroed l (slot c i) := by
    have := i.isLt
    exact ⟨c, hz, by simp only [slot]; omega, by simp only [slot]; omega⟩
  rcases ht.frame (slot c i) with hw | ⟨-, h0⟩ | ⟨hno, -⟩
  · exact .inr hw
  · exact .inl h0
  · exact absurd hin hno

/-- A spoiled call has no such account of its links. -/
theorem Spoiled.not_fresh {M : Mapper L} {h : Host} {r : EStateM.Result Stop Host Unit}
    (hs : Spoiled M h r) :
    ¬ ∃ h', r = .ok () h' ∧ FreshLinks L h h' := by
  rintro ⟨h', rfl, l, hl, hfresh⟩
  obtain ⟨-, l', hl', s, c, hlink, hno⟩ := hs
  obtain rfl : l' = l := List.append_cancel_right (hl'.symm.trans hl)
  obtain ⟨⟨p, hp, he, -⟩, -⟩ := hfresh s c hlink
  exact hno p (by simp only [totalPages] at hp; omega) he

/-! ## A machine whose window is full -/

/-- Cleared memory with the given allocator state. -/
def clearHost (bm : Bitmap) : Host := ⟨fun _ => 0, bm, []⟩

/-- The pages of the direct map are taken, the rest of the pool is free. -/
def windowTaken : Bitmap := fun w => if w < 4096 then BitVec.allOnes 64 else 0#64

theorem bit_windowTaken (n : Nat) : bit windowTaken n = decide (n < 2 ^ 18) := by
  have hmod : n % 64 < 64 := Nat.mod_lt _ (by decide)
  rw [bit, windowTaken]
  by_cases hn : n < 2 ^ 18
  · rw [if_pos (by omega), BitVec.getLsbD_allOnes, decide_eq_true hmod, decide_eq_true hn]
  · rw [if_neg (by omega), BitVec.getLsbD_zero, decide_eq_false hn]

theorem evenFree_windowTaken_low : evenFree windowTaken (2 ^ 17) = 0 := by
  refine Nat.eq_zero_of_not_pos fun hpos => ?_
  obtain ⟨k, hk, hb⟩ := exists_of_evenFree_pos hpos
  rw [bit_windowTaken, decide_eq_false_iff_not] at hb
  omega

theorem evenFree_windowTaken : 3 ≤ evenFree windowTaken (totalPages / 2) := by
  have hlow := evenFree_windowTaken_low
  have hstretch : evenFree windowTaken (2 ^ 17 + 3) = evenFree windowTaken (2 ^ 17) + 3 :=
    evenFree_stretch fun k h1 _ => by
      rw [bit_windowTaken, decide_eq_false_iff_not]
      omega
  have hmono : evenFree windowTaken (2 ^ 17 + 3) ≤ evenFree windowTaken (totalPages / 2) :=
    evenFree_mono (by decide)
  omega

end HyperCore.TableMap
