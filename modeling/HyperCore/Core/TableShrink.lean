import HyperCore.Core.TableGrow

/-!
# What unmapping a page does to the tables

Unmapping clears a last-level entry and then, level by level on the way back, frees
each table that has no live entry left and clears the link to it. The point is that a
freed table was reachable on one path only, so cutting that path removes it from the
tree, and that it held nothing, so no other walk notices.
-/

namespace HyperCore.TableMap

open RadixTable Bitmap PageAlloc ArchPage

variable {L : Layout}

/-- How unmapping the page `idx` below level `k` shrank the tree: no table is new, the
tables down to level `k` stay, pages were only given back, and the walk of the page
finds nothing while every other walk is as before. -/
structure Shrunk (M : Mapper L) (root depth : Nat) (idx : Nat → Fin 512) (k : Nat) (h h' : Host) :
    Prop where
  tables : Tables M root depth h'
  old : ∀ {idx' j b}, j ≤ depth → tableAt M.format h'.mem root idx' j = some b →
    tableAt M.format h.mem root idx' j = some b
  keep : ∀ {idx' j}, j ≤ k →
    tableAt M.format h'.mem root idx' j = tableAt M.format h.mem root idx' j
  walks : ∀ {O : Type} (leaf : Word → Option O), (∀ e, M.live e = false → leaf e = none) →
    ∀ idx', lookup M.format leaf h'.mem root depth idx' =
      if AgreeTo (depth + 1) idx' idx then none else lookup M.format leaf h.mem root depth idx'

/-- A shrunk tree, and which pages it gave back: those of the tables on the path that are gone. A
table on the path that is still there has a live entry. -/
structure Pruned (M : Mapper L) (root depth : Nat) (idx : Nat → Fin 512) (k : Nat) (h h' : Host) :
    Prop extends Shrunk M root depth idx k h h' where
  entry : ∀ {j b}, k < j → j ≤ depth → tableAt M.format h'.mem root idx j = some b →
    ∃ i : Fin 512, M.live (h'.mem (slot b i)) = true
  bits : ∀ n, bit h'.bitmap n = true ↔ bit h.bitmap n = true ∧ ¬ ∃ j, k < j ∧ j ≤ depth ∧
    tableAt M.format h.mem root idx j = some (L.physPage n) ∧
    tableAt M.format h'.mem root idx j = none
  frame : ∀ {x}, ¬ InTables M root depth h x → h'.mem x = h.mem x

section

variable {M : Mapper L} {root depth k t b c p : Nat} {idx : Nat → Fin 512} {h : Host}

theorem clearEntry_at (hat : M.At t b) (i : Fin 512) (h : Host) :
    clearEntry M.tr (t + 8 * i) h =
      .ok () { h with mem := setMem h.mem (slot b i) 0, log := .unlink (slot b i) :: h.log } := by
  simp only [clearEntry, hat i]

theorem anyLive_at (hat : M.At t b) (h : Host) {n : Nat} (hn : n ≤ 512) :
    M.anyLive t n h = .ok ((List.range n).any fun i => M.live (h.mem (slot b i))) h := by
  induction n with
  | zero => rfl
  | succ n ih =>
    have hload : load M.tr (t + 8 * n) h = .ok (h.mem (slot b n)) h :=
      load_at hat ⟨n, Nat.lt_of_succ_le hn⟩ h
    rw [Mapper.anyLive, bind_ok (ih (Nat.le_of_succ_le hn)), bind_ok hload, List.range_succ,
      List.any_append]
    simp only [List.any_cons, List.any_nil, Bool.or_false]
    rfl

/-- A rewritten entry of a table is the only one that changes. -/
theorem setMem_sameBut (ht : Tables M root depth h) (hk : k ≤ depth)
    (hb : tableAt M.format h.mem root idx k = some b) (i : Fin 512) (w : Word) :
    SameBut M.format h.mem (setMem h.mem (slot b i) w) root depth b i := by
  intro idx' j b' hj hb' i' hor
  refine if_neg fun he => ?_
  obtain ⟨h1, h2⟩ := slot_inj (ht.tree.aligned hj hb') (ht.tree.aligned hk hb) he
  exact hor.elim (fun hc => hc h1) fun hc => hc h2

/-- Clearing a last-level entry. -/
theorem clear_shrunk (ht : Tables M root depth h)
    (hb : tableAt M.format h.mem root idx depth = some b) (l : List Event) :
    Shrunk M root depth idx depth h ⟨setMem h.mem (slot b (idx depth)) 0, h.bitmap, l⟩ := by
  have hst : Stores M.format h.mem (setMem h.mem (slot b (idx depth)) 0) root depth idx b :=
    ⟨hb, setMem_sameBut ht (Nat.le_refl _) hb _ _⟩
  refine ⟨⟨hst.tree ht.tree, fun h0 hj hb' => ?_, ht.root_taken⟩, fun hj hb' => ?_, fun hj => ?_,
    fun leaf hdead idx' => ?_⟩
  · exact ht.owned h0 hj (hst.tableAt_eq ht.tree hj ▸ hb')
  · exact hst.tableAt_eq ht.tree hj ▸ hb'
  · exact hst.tableAt_eq ht.tree hj
  · rw [hst.lookup_eq ht.tree, setMem, if_pos rfl, hdead 0 M.live_zero]

/-- The state after page `p` was given back and the entry at `a` cleared. -/
def cutHost (h : Host) (a p : Nat) : Host where
  mem := setMem h.mem a 0
  bitmap := freeOnePage h.bitmap p
  log := .unlink a :: h.log

/-- Freeing a table without live entries. -/
theorem cut_shrunk (ht : Tables M root depth h) (hk : k < depth)
    (hb : tableAt M.format h.mem root idx k = some b)
    (hc : tableAt M.format h.mem root idx (k + 1) = some (L.physPage p)) (hp : p < 2 ^ 20)
    (hdead : ∀ i : Fin 512, M.live (h.mem (slot (L.physPage p) i)) = false) :
    Tables M root depth (cutHost h (slot b (idx k)) p) ∧
      Cuts M.format h.mem (cutHost h (slot b (idx k)) p).mem root depth idx k b ∧
      ∀ {O : Type} (leaf : Word → Option O), (∀ e, M.live e = false → leaf e = none) → ∀ idx',
        lookup M.format leaf (cutHost h (slot b (idx k)) p).mem root depth idx' =
          lookup M.format leaf h.mem root depth idx' := by
  have hbm : (cutHost h (slot b (idx k)) p).bitmap = freeOnePage h.bitmap p := by
    simp only [cutHost]
  have hcut : Cuts M.format h.mem (cutHost h (slot b (idx k)) p).mem root depth idx k b :=
    ⟨hk, hb, if_pos rfl, setMem_sameBut ht (Nat.le_of_lt hk) hb _ _⟩
  generalize cutHost h (slot b (idx k)) p = h' at hbm hcut ⊢
  -- a table of the cut tree is an old one, and not the freed one
  have hother : ∀ {idx' j b'}, j ≤ depth → tableAt M.format h'.mem root idx' j = some b' →
      tableAt M.format h.mem root idx' j = some b' ∧ b' ≠ L.physPage p := by
    intro idx' j b' hj hb'
    rw [hcut.tableAt_eq ht.tree hj] at hb'
    split at hb'
    · cases hb'
    · next hno =>
      refine ⟨hb', fun he => hno ?_⟩
      rw [he] at hb'
      obtain ⟨rfl, hag⟩ := ht.tree.inj hj hk hb' hc
      exact ⟨Nat.lt_succ_self k, hag⟩
  have htot : p < totalPages := by
    simp only [totalPages]
    omega
  have hbit : ∀ {q}, L.physPage q ≠ L.physPage p → bit h.bitmap q = true →
      bit h'.bitmap q = true := by
    intro q hne hset
    rw [hbm, bit_freeOnePage htot, hset, Bool.and_true, Bool.not_eq_true', decide_eq_false_iff_not]
    exact fun he => hne (congrArg L.physPage he)
  refine ⟨⟨hcut.tree ht.tree, fun h0 hj hb' => ?_, fun {q} hq he => ?_⟩, hcut,
    fun leaf hleaf idx' => ?_⟩
  · obtain ⟨hold, hne⟩ := hother hj hb'
    obtain ⟨q, hq, he, hset⟩ := ht.owned h0 hj hold
    exact ⟨q, hq, he, hbit (he ▸ hne) hset⟩
  · have hroot : tableAt M.format h'.mem root idx 0 = some root := rfl
    exact hbit (he ▸ (hother (Nat.zero_le _) hroot).2) (ht.root_taken hq he)
  · refine hcut.lookup_eq ht.tree (tableAt_succ hb ▸ hc) (fun i => ?_) fun i => hleaf _ (hdead i)
    cases hnext : M.format.next (h.mem (slot (L.physPage p) i)) with
    | none => rfl
    | some c' =>
      have := M.live_of_valid (M.of_next hnext).1
      rw [hdead i] at this
      cases this

/-- Rewriting an entry of a table changes no word outside the tables. -/
theorem setMem_outside {m : Nat → Word} {w : Word} {x : Nat} (hk : k ≤ depth)
    (hb : tableAt M.format h.mem root idx k = some b) (hx : ¬ InTables M root depth h x) :
    setMem m (slot b (idx k)) w x = m x := by
  refine if_neg fun he => hx ⟨idx, k, b, hk, hb, ?_⟩
  have hi := (idx k).isLt
  rw [he, slot]
  omega

/-- A table without live entries has no table below it. -/
theorem tableAt_none_of_dead {j : Nat} (hc : tableAt M.format h.mem root idx k = some c)
    (hdead : ∀ i : Fin 512, M.live (h.mem (slot c i)) = false) (hj : k < j) :
    tableAt M.format h.mem root idx j = none := by
  refine tableAt_none hj ?_
  rw [tableAt_succ hc]
  cases hnext : M.format.next (h.mem (slot c (idx k))) with
  | none => rfl
  | some c' =>
    have hlive := M.live_of_valid (M.of_next hnext).1
    rw [hdead] at hlive
    cases hlive

/-- Unmapping a page whose path is complete. -/
theorem unmapAt_pruned {bl n : Nat} (ht : Tables M root depth h) (hsee : Sees M root depth h idx)
    (hbl : tableAt M.format h.mem root idx depth = some bl)
    (hlive : M.live (h.mem (slot bl (idx depth))) = true)
    (hbase : M.base (h.mem (slot bl (idx depth))) ≠ 0) :
    ∀ {k t b}, k + n = depth → tableAt M.format h.mem root idx k = some b → M.At t b → t ≠ 0 →
      ∃ h', M.unmapAt idx n k t h = .ok () h' ∧ Pruned M root depth idx k h h' := by
  induction n with
  | zero =>
    intro k t b hk hb hat ht0
    obtain rfl : k = depth := hk
    rw [hbl] at hb
    cases hb
    refine ⟨_, ?_, clear_shrunk ht hbl (.unlink (slot bl (idx k)) :: h.log), fun hkj hj _ => ?_,
      fun n => ?_, fun hx => setMem_outside (Nat.le_refl _) hbl hx⟩
    · rw [Mapper.unmapAt, if_neg ht0, bind_ok (load_at hat _ h)]
      simp only [hlive, Bool.not_true, Bool.false_or, beq_iff_eq, hbase, if_false]
      exact clearEntry_at hat _ h
    · exact absurd hkj (Nat.not_lt.mpr hj)
    · refine (and_iff_left ?_).symm
      rintro ⟨j, hkj, hj, -⟩
      exact absurd hkj (Nat.not_lt.mpr hj)
  | succ n ih =>
    intro k t b hk hb hat ht0
    have hkd : k < depth := by omega
    have hsome := tableAt_isSome_of_le (show k + 1 ≤ depth from hkd) (Option.isSome_of_eq_some hbl)
    obtain ⟨c, hc⟩ := Option.isSome_iff_exists.mp hsome
    obtain ⟨p, hp19, rfl, -⟩ := ht.owned (Nat.succ_pos k) hkd hc
    have hp : p < 2 ^ 20 := by omega
    have hat' := hsee _ _ (Nat.succ_pos k) hkd hc
    obtain ⟨hv, -, hbc⟩ := M.of_next (tableAt_succ hb ▸ hc)
    have hne : L.physPage p ≠ 0 := Nat.ne_of_gt (L.physPage_pos p)
    obtain ⟨h₁, hrun, hs⟩ := ih (by omega) hc hat' (M.tableAddr_ne hp)
    have hb₁ : tableAt M.format h₁.mem root idx k = some b := hs.keep (Nat.le_succ k) ▸ hb
    have hc₁ : tableAt M.format h₁.mem root idx (k + 1) = some (L.physPage p) :=
      hs.keep (Nat.le_refl _) ▸ hc
    rw [Mapper.unmapAt, if_neg ht0, bind_ok (load_at hat _ h)]
    simp only [M.live_of_valid hv, Bool.not_true, Bool.false_or, beq_iff_eq, hne, if_false, hbc]
    rw [bind_ok hrun, bind_ok (anyLive_at hat' h₁ (Nat.le_refl _))]
    cases hany : (List.range 512).any fun i => M.live (h₁.mem (slot (L.physPage p) i)) with
    | true =>
      refine ⟨h₁, rfl, ⟨hs.tables, hs.old, fun hj => hs.keep (Nat.le_succ_of_le hj), hs.walks⟩,
        fun hkj hj hbj => ?_, fun n => ?_, hs.frame⟩
      · rcases Nat.eq_or_lt_of_le (Nat.succ_le_of_lt hkj) with rfl | hlt
        · rw [hc₁] at hbj
          cases hbj
          obtain ⟨i, hi, hlive⟩ := List.any_eq_true.mp hany
          exact ⟨⟨i, List.mem_range.mp hi⟩, hlive⟩
        · exact hs.entry hlt hj hbj
      · rw [hs.bits]
        refine and_congr_right' (not_congr ⟨?_, ?_⟩)
        · rintro ⟨j, hkj, hj⟩
          exact ⟨j, Nat.lt_of_succ_lt hkj, hj⟩
        · rintro ⟨j, hkj, hj, hold, hgone⟩
          refine ⟨j, Nat.lt_of_le_of_ne hkj ?_, hj, hold, hgone⟩
          rintro rfl
          rw [hc₁] at hgone
          cases hgone
    | false =>
      have hdead : ∀ i : Fin 512, M.live (h₁.mem (slot (L.physPage p) i)) = false := by
        intro i
        simpa using List.any_eq_false.mp hany i (List.mem_range.mpr i.isLt)
      have hgive : givePage (L.phyToFn (L.physPage p)) h₁ =
          .ok () { h₁ with bitmap := freeOnePage h₁.bitmap p } := by
        rw [givePage, L.phyToFn_physPage hp]
      obtain ⟨htab, hcut, hsame⟩ := cut_shrunk hs.tables hkd hb₁ hc₁ hp hdead
      have hrun₂ : (do
          givePage (L.phyToFn (L.physPage p))
          clearEntry M.tr (t + 8 * idx k)) h₁ = .ok () (cutHost h₁ (slot b (idx k)) p) := by
        rw [bind_ok hgive, clearEntry_at hat, cutHost]
      have hgone : ∀ {j}, k < j → j ≤ depth →
          tableAt M.format (cutHost h₁ (slot b (idx k)) p).mem root idx j = none := by
        intro j hkj hj
        rw [hcut.tableAt_eq hs.tables.tree hj, if_pos ⟨hkj, AgreeTo.refl _ _⟩]
      refine ⟨_, hrun₂, ⟨htab, fun hj hb' => ?_, fun hj => ?_, fun leaf hleaf idx' => ?_⟩,
        fun hkj hj hbj => ?_, fun n => ?_,
        fun hx => (setMem_outside (Nat.le_of_lt hkd) hb hx).trans (hs.frame hx)⟩
      · rw [hcut.tableAt_eq hs.tables.tree hj] at hb'
        split at hb'
        · cases hb'
        · exact hs.old hj hb'
      · rw [hcut.tableAt_eq hs.tables.tree (by omega), if_neg (by omega)]
        exact hs.keep (Nat.le_succ_of_le hj)
      · rw [hsame leaf hleaf, hs.walks leaf hleaf]
      · rw [hgone hkj hj] at hbj
        cases hbj
      · have htot : p < totalPages := by
          simp only [totalPages]
          omega
        have hbm : (cutHost h₁ (slot b (idx k)) p).bitmap = freeOnePage h₁.bitmap p := by
          simp only [cutHost]
        rw [hbm, bit_freeOnePage htot, Bool.and_eq_true, hs.bits, Bool.not_eq_true', decide_eq_false_iff_not, and_left_comm,
          ← not_or]
        refine and_congr_right' (not_congr ⟨?_, ?_⟩)
        · rintro (rfl | ⟨j, hkj, hj, hold, -⟩)
          · exact ⟨k + 1, Nat.lt_succ_self k, hkd, hc, hgone (Nat.lt_succ_self k) hkd⟩
          · exact ⟨j, Nat.lt_of_succ_lt hkj, hj, hold, hgone (Nat.lt_of_succ_lt hkj) hj⟩
        · rintro ⟨j, hkj, hj, hold, -⟩
          rcases Nat.eq_or_lt_of_le (Nat.succ_le_of_lt hkj) with rfl | hlt
          · rw [hc] at hold
            exact .inl (L.physPage_inj (Option.some.inj hold)).symm
          · exact .inr ⟨j, hlt, hj, hold, tableAt_none_of_dead hc₁ hdead hlt⟩

/-! ## A range of pages -/

/-- An entry that unmapping accepts. -/
def Mapper.present (M : Mapper L) (e : Word) : Option Unit :=
  if M.live e && M.base e != 0 then some () else none

/-- The walk of `idx` ends in an entry that unmapping accepts. -/
def Mapped (M : Mapper L) (root depth : Nat) (h : Host) (idx : Nat → Fin 512) : Prop :=
  lookup M.format M.present h.mem root depth idx = some ()

theorem present_of_dead {e : Word} (he : M.live e = false) : M.present e = none := by
  rw [Mapper.present, he]
  rfl

theorem Mapped.entry (hm : Mapped M root depth h idx) :
    ∃ bl, tableAt M.format h.mem root idx depth = some bl ∧
      M.live (h.mem (slot bl (idx depth))) = true ∧
      M.base (h.mem (slot bl (idx depth))) ≠ 0 := by
  obtain ⟨bl, hbl, he⟩ := Option.bind_eq_some_iff.mp hm
  rw [Mapper.present] at he
  split at he
  · next hc =>
    rw [Bool.and_eq_true, bne_iff_ne] at hc
    exact ⟨bl, hbl, hc⟩
  · cases he

/-- Unmapping succeeds on a page with an entry that it accepts. -/
theorem unmapAt_mapped {rt : Nat} (ht : Tables M root depth h) (hroot : M.At rt root)
    (hrt : rt ≠ 0) (hsee : Sees M root depth h idx) (hm : Mapped M root depth h idx) :
    ∃ h', M.unmapAt idx depth 0 rt h = .ok () h' ∧ Pruned M root depth idx 0 h h' := by
  obtain ⟨bl, hbl, hlive, hbase⟩ := hm.entry
  exact unmapAt_pruned ht hsee hbl hlive hbase (Nat.zero_add depth) rfl hroot hrt

/-- Unmapping distinct mapped pages: their walks end, every other walk is as before, and what
unmapping one page keeps is kept. -/
theorem unmapPages_keeps {I : Host → Prop} {rt n : Nat} {idx : Nat → Nat → Fin 512}
    (ht : Tables M root depth h) (hroot : M.At rt root) (hrt : rt ≠ 0)
    (hsee : ∀ i, i < n → Sees M root depth h (idx i))
    (hdist : ∀ i j, i < j → j < n → ¬ AgreeTo (depth + 1) (idx j) (idx i))
    (hmapped : ∀ i, i < n → Mapped M root depth h (idx i)) (hI : I h)
    (hkeep : ∀ {h h' idx'}, Tables M root depth h → I h → Pruned M root depth idx' 0 h h' → I h') :
    ∃ h', forRounds (fun i => M.unmapAt (idx i) depth 0 rt) n h = .ok () h' ∧
      Tables M root depth h' ∧ I h' ∧
      (∀ {idx' j b}, j ≤ depth → tableAt M.format h'.mem root idx' j = some b →
        tableAt M.format h.mem root idx' j = some b) ∧
      ∀ {O : Type} (leaf : Word → Option O), (∀ e, M.live e = false → leaf e = none) →
        (∀ i, i < n → lookup M.format leaf h'.mem root depth (idx i) = none) ∧
        ∀ idx', (∀ i, i < n → ¬ AgreeTo (depth + 1) idx' (idx i)) →
          lookup M.format leaf h'.mem root depth idx' =
            lookup M.format leaf h.mem root depth idx' := by
  induction n with
  | zero => exact ⟨h, rfl, ht, hI, fun _ hb => hb, fun _ _ => ⟨nofun, fun _ _ => rfl⟩⟩
  | succ n ih =>
    obtain ⟨h₁, hrun, ht₁, hI₁, hold, hw⟩ := ih (fun i hi => hsee i (Nat.lt_succ_of_lt hi))
      (fun i j hij hj => hdist i j hij (Nat.lt_succ_of_lt hj))
      (fun i hi => hmapped i (Nat.lt_succ_of_lt hi))
    have hn := Nat.lt_succ_self n
    have hstill : Mapped M root depth h₁ (idx n) :=
      ((hw M.present fun _ => present_of_dead).2 _ fun i hi => hdist i n hi hn).trans (hmapped n hn)
    have hsee₁ : Sees M root depth h₁ (idx n) :=
      fun j b h0 hj hb => hsee n hn j b h0 hj (hold hj hb)
    obtain ⟨h₂, hrun₂, hs⟩ := unmapAt_mapped ht₁ hroot hrt hsee₁ hstill
    refine ⟨h₂, ?_, hs.tables, hkeep ht₁ hI₁ hs, fun hj hb => hold hj (hs.old hj hb),
      fun leaf hdead => ⟨fun i hi => ?_, fun idx' hno => ?_⟩⟩
    · rw [forRounds, bind_ok hrun, hrun₂]
    · rw [hs.walks leaf hdead]
      split
      · rfl
      · next hna =>
        rcases Nat.lt_or_ge i n with hlt | hge
        · exact (hw leaf hdead).1 i hlt
        · cases Nat.le_antisymm (Nat.le_of_lt_succ hi) hge
          exact absurd (AgreeTo.refl _ _) hna
    · rw [hs.walks leaf hdead, if_neg (hno n hn)]
      exact (hw leaf hdead).2 idx' fun i hi => hno i (Nat.lt_succ_of_lt hi)

theorem unmapPages_good {rt n : Nat} {idx : Nat → Nat → Fin 512} (ht : Tables M root depth h)
    (hroot : M.At rt root) (hrt : rt ≠ 0) (hsee : ∀ i, i < n → Sees M root depth h (idx i))
    (hdist : ∀ i j, i < j → j < n → ¬ AgreeTo (depth + 1) (idx j) (idx i))
    (hmapped : ∀ i, i < n → Mapped M root depth h (idx i)) :
    ∃ h', forRounds (fun i => M.unmapAt (idx i) depth 0 rt) n h = .ok () h' ∧
      Tables M root depth h' ∧
      (∀ {idx' j b}, j ≤ depth → tableAt M.format h'.mem root idx' j = some b →
        tableAt M.format h.mem root idx' j = some b) ∧
      ∀ {O : Type} (leaf : Word → Option O), (∀ e, M.live e = false → leaf e = none) →
        (∀ i, i < n → lookup M.format leaf h'.mem root depth (idx i) = none) ∧
        ∀ idx', (∀ i, i < n → ¬ AgreeTo (depth + 1) idx' (idx i)) →
          lookup M.format leaf h'.mem root depth idx' =
            lookup M.format leaf h.mem root depth idx' := by
  obtain ⟨h', hrun, htab, -, hold, hw⟩ := unmapPages_keeps (I := fun _ => True) ht hroot hrt hsee
    hdist hmapped trivial fun _ _ _ => trivial
  exact ⟨h', hrun, htab, hold, hw⟩

end

end HyperCore.TableMap
