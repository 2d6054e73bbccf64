import HyperCore.Lib.TrimTree
import HyperCore.Core.TableReach

/-!
# Mapping a page and unmapping it again

The mapper links tables, the unmapper frees those without a live entry. In a tree where every table
is on the path of a live last-level entry (`Trim`) the two are inverse to each other
(`mapPage_undone`): such a tree has tables exactly on the paths of its translations, so a tree with
the translations of the old one has the tables of the old one, and the pages that came and went are
those of the same tables.

Mapping a live entry and unmapping keep a tree trim.
-/

namespace HyperCore.TableMap

open RadixTable Bitmap PageAlloc ArchPage

variable {L : Layout}

/-! ## Trim trees -/

/-- A live entry, as something that a walk finds. -/
def Mapper.alive (M : Mapper L) (e : Word) : Option Unit := if M.live e then some () else none

section

variable {M : Mapper L} {root depth rt : Nat} {h h' : Host} {idx : Nat → Fin 512}

theorem alive_dead {e : Word} (he : M.live e = false) : M.alive e = none := by
  rw [Mapper.alive, he]
  rfl

theorem alive_live {e : Word} (he : M.live e = true) : M.alive e = some () := by
  rw [Mapper.alive, he]
  rfl

theorem alive_zero : M.alive 0 = none := alive_dead M.live_zero

/-- A tree that grew on the paths of live entries only. -/
theorem trim_grown {S : (Nat → Fin 512) → Nat → Prop} {c : Nat}
    (htrim : Trim M.format M.alive h.mem root depth) (hg : Grown M root depth S c h h')
    (hS : ∀ {idx k}, S idx k → ∃ idx', AgreeTo k idx' idx ∧
      (lookup M.format M.alive h'.mem root depth idx').isSome)
    (hkept : ∀ idx, (lookup M.format M.alive h.mem root depth idx).isSome →
      (lookup M.format M.alive h'.mem root depth idx).isSome) :
    Trim M.format M.alive h'.mem root depth := by
  intro idx k h0 hk hb
  rcases (hg.new hk).mp hb with hold | hs
  · obtain ⟨idx', hag, hl⟩ := htrim idx k h0 hk hold
    exact ⟨idx', hag, hkept idx' hl⟩
  · exact hS hs

/-- Unmapping frees the tables that would be idle. -/
theorem trim_pruned (htrim : Trim M.format M.alive h.mem root depth)
    (hp : Pruned M root depth idx 0 h h') : Trim M.format M.alive h'.mem root depth := by
  -- from the last level upwards: below a live entry there is a table with a live entry, or a leaf
  have hbelow : ∀ n {idx' k}, k + n = depth → 0 < k →
      (tableAt M.format h'.mem root idx' k).isSome → ∃ idx'', AgreeTo k idx'' idx' ∧
        (lookup M.format M.alive h'.mem root depth idx'').isSome := by
    intro n
    induction n with
    | zero =>
      intro idx' k hk h0 hb
      obtain rfl : k = depth := hk
      obtain ⟨b, hb⟩ := Option.isSome_iff_exists.mp hb
      obtain ⟨idx₁, hag₁, hl⟩ := htrim idx' k h0 (Nat.le_refl _)
        (Option.isSome_of_eq_some (hp.old (Nat.le_refl _) hb))
      by_cases hag : AgreeTo (k + 1) idx₁ idx
      · rw [tableAt_congr (hag₁.symm.trans (hag.mono (Nat.le_succ _)))] at hb
        obtain ⟨i, hi⟩ := hp.entry h0 (Nat.le_refl _) hb
        have hsame : AgreeTo k (Function.update idx k i) idx :=
          fun j hj => Function.update_of_ne (Nat.ne_of_lt hj) i idx
        refine ⟨Function.update idx k i, hsame.trans (hag₁.symm.trans
          (hag.mono (Nat.le_succ _))).symm, ?_⟩
        rw [lookup, tableAt_congr hsame, hb, Option.bind_some, Function.update_self, alive_live hi]
        rfl
      · refine ⟨idx₁, hag₁, ?_⟩
        rw [hp.walks M.alive fun _ => alive_dead, if_neg hag]
        exact hl
    | succ n ih =>
      intro idx' k hk h0 hb
      have hkd : k < depth := by omega
      obtain ⟨b, hb⟩ := Option.isSome_iff_exists.mp hb
      obtain ⟨idx₁, hag₁, hl⟩ := htrim idx' k h0 (Nat.le_of_lt hkd)
        (Option.isSome_of_eq_some (hp.old (Nat.le_of_lt hkd) hb))
      by_cases hag : AgreeTo (depth + 1) idx₁ idx
      · have hpath := hag₁.symm.trans (hag.mono (Nat.le_succ_of_le (Nat.le_of_lt hkd)))
        rw [tableAt_congr hpath] at hb
        obtain ⟨i, hi⟩ := hp.entry h0 (Nat.le_of_lt hkd) hb
        have hsame : AgreeTo k (Function.update idx k i) idx :=
          fun j hj => Function.update_of_ne (Nat.ne_of_lt hj) i idx
        rw [← tableAt_congr hsame] at hb
        have hlink : (M.format.next (h'.mem (slot b i))).isSome := by
          rcases hp.tables.tree.entry hkd hb i with he | he
          · have hdead := M.live_zero
            rw [he] at hi
            exact absurd (hdead.symm.trans hi) Bool.false_ne_true
          · exact he
        have hsome : (tableAt M.format h'.mem root (Function.update idx k i) (k + 1)).isSome := by
          rw [tableAt_succ hb, Function.update_self]
          exact hlink
        obtain ⟨idx₂, hag₂, hl₂⟩ := ih (k := k + 1) (by omega) (Nat.succ_pos k) hsome
        exact ⟨idx₂, (hag₂.mono (Nat.le_succ _)).trans (hsame.trans hpath.symm), hl₂⟩
      · refine ⟨idx₁, hag₁, ?_⟩
        rw [hp.walks M.alive fun _ => alive_dead, if_neg hag]
        exact hl
  exact fun idx' k h0 hk hb => hbelow (depth - k) (by omega) h0 hb

/-- Mapping pages with live entries keeps a tree trim. -/
theorem mapPages_trim {idx : Nat → Nat → Fin 512} {e : Nat → Word} {n : Nat}
    (ht : Tables M root depth h) (htrim : Trim M.format M.alive h.mem root depth)
    (hroot : M.At rt root) (hsee : ∀ i, i < n → Sees M root depth h (idx i))
    (hfree : needed M root depth h idx n ≤ evenFree h.bitmap M.half)
    (hdist : ∀ i j, i < j → j < n → ¬ AgreeTo (depth + 1) (idx i) (idx j))
    (he : ∀ i, i < n → M.live (e i) = true)
    (hrun : M.mapPages rt depth idx e n h = .ok () h') :
    Trim M.format M.alive h'.mem root depth := by
  obtain ⟨h₁, hrun₁, hg, hw⟩ := mapPages_good ht hroot e hsee hfree
  cases hrun₁.symm.trans hrun
  obtain ⟨hnew, hold⟩ := hw M.alive alive_zero
  have hlive (i : Nat) (hi : i < n) :
      (lookup M.format M.alive h'.mem root depth (idx i)).isSome := by
    rw [hnew hdist i hi, alive_live (he i hi)]
    rfl
  refine trim_grown htrim hg ?_ fun idx' hl => ?_
  · rintro idx' k ⟨i, hi, hag⟩
    exact ⟨idx i, hag.symm, hlive i hi⟩
  · by_cases hag : ∃ i, i < n ∧ AgreeTo (depth + 1) idx' (idx i)
    · obtain ⟨i, hi, hag⟩ := hag
      rw [lookup_congr hag]
      exact hlive i hi
    · rw [hold idx' fun i hi hc => hag ⟨i, hi, hc⟩]
      exact hl

end

/-! ## The pages of new tables -/

section

variable {M : Mapper L} {root depth rt k t b : Nat} {h h' : Host} {idx : Nat → Fin 512}

/-- A page taken at one level is the table below it. -/
theorem nextTable_page {t' n : Nat} (ht : Tables M root depth h) (hk : k < depth) (hat : M.At t b)
    (hb : tableAt M.format h.mem root idx k = some b)
    (hfree : tableAt M.format h.mem root idx (k + 1) = none → 0 < evenFree h.bitmap M.half)
    (hrun : M.nextTable t (idx k) h = .ok t' h') (hbit : bit h'.bitmap n = true) :
    bit h.bitmap n = true ∨ tableAt M.format h'.mem root idx (k + 1) = some (L.physPage n) := by
  cases hc : tableAt M.format h.mem root idx (k + 1) with
  | some c =>
    rw [nextTable_hit hat hb hc] at hrun
    cases hrun
    exact .inl hbit
  | none =>
    have hle : M.half ≤ 2 ^ 19 := Nat.le_trans M.half_le (by decide)
    obtain ⟨p, hp, hleast, halloc⟩ := allocOnePage_low hle (hfree hc)
    have hclear := (freeRun_one.mp hleast.1).2.2
    have hv : M.valid (h.mem (slot b (idx k))) = false := by
      rw [entry_of_none ht hk hb hc]
      exact M.valid_zero
    rw [nextTable_link hat hv hp halloc] at hrun
    cases hrun
    rcases ((linkHost_takes hp hclear).bits n).mp hbit with hold | hzero
    · exact .inl hold
    · have hext := linkHost_extends ht hk hb hc hp hclear
      refine .inr ?_
      rw [hext.tableAt_eq ht.tree hk, if_pos ⟨rfl, AgreeTo.refl _ _⟩]
      rcases List.mem_cons.mp hzero with he | he
      · cases he
      · exact congrArg some (Event.zero.inj (List.mem_singleton.mp he)).symm

/-- The pages taken on the way down are tables of the path. -/
theorem descend_page {n : Nat} (ht : Tables M root depth h) (hroot : M.At rt root)
    (hsee : Sees M root depth h idx) (hk : k ≤ depth)
    (hfree : missing M root h idx k ≤ evenFree h.bitmap M.half)
    (hrun : M.descend rt idx k h = .ok t h') (hbit : bit h'.bitmap n = true) :
    bit h.bitmap n = true ∨ ∃ j, 0 < j ∧ j ≤ k ∧
      tableAt M.format h'.mem root idx j = some (L.physPage n) := by
  induction k generalizing t h' with
  | zero =>
    cases hrun
    exact .inl hbit
  | succ k ih =>
    rw [missing_succ] at hfree
    obtain ⟨h₁, t₁, b, hrun₁, hb, hat, hg, -⟩ :=
      descend_good ht hroot hsee (Nat.le_of_succ_le hk) (Nat.le_trans (Nat.le_add_right _ _) hfree)
    rw [Mapper.descend, bind_ok hrun₁] at hrun
    have hroom : tableAt M.format h₁.mem root idx (k + 1) = none → 0 < evenFree h₁.bitmap M.half := by
      intro hnone
      have hcount := hg.count (Nat.le_refl M.half)
      have hold : tableAt M.format h.mem root idx (k + 1) = none := by
        rw [← Option.not_isSome_iff_eq_none] at hnone ⊢
        exact fun hc => hnone ((hg.new hk).mpr (.inl hc))
      rw [hold, if_pos (by rfl)] at hfree
      omega
    obtain ⟨h₂, c, hrun₂, -, -, hg₂, -⟩ := nextTable_good hg.tables hk hat hb
      (hsee.grown hg _ _ (Nat.succ_pos k) hk) hroom
    cases hrun₂.symm.trans hrun
    rcases nextTable_page hg.tables hk hat hb hroom hrun₂ hbit with hbit₁ | hnew
    · rcases ih (Nat.le_of_succ_le hk) (Nat.le_trans (Nat.le_add_right _ _) hfree) hrun₁ hbit₁ with
        hold | ⟨j, h0, hj, hb'⟩
      · exact .inl hold
      · exact .inr ⟨j, h0, Nat.le_succ_of_le hj, hg₂.old (Nat.le_trans hj (Nat.le_of_succ_le hk)) hb'⟩
    · exact .inr ⟨k + 1, Nat.succ_pos k, Nat.le_refl _, hnew⟩

/-- The pages that mapping takes are tables of the path. -/
theorem mapPage_page {e : Word} {n : Nat} (ht : Tables M root depth h) (hroot : M.At rt root)
    (hsee : Sees M root depth h idx)
    (hfree : missing M root h idx depth ≤ evenFree h.bitmap M.half)
    (hrun : M.mapPage rt depth idx e h = .ok () h') (hbit : bit h'.bitmap n = true) :
    bit h.bitmap n = true ∨ ∃ j, 0 < j ∧ j ≤ depth ∧
      tableAt M.format h'.mem root idx j = some (L.physPage n) := by
  obtain ⟨h₁, t₁, b, hrun₁, hb, hat, hg, -⟩ := descend_good ht hroot hsee (Nat.le_refl _) hfree
  obtain ⟨h₂, hrun₂, -, -, hst, hg₂⟩ := storeLeaf_stores hg.tables hat hb e
  have hrun' : M.mapPage rt depth idx e h = .ok () h₂ := by
    rw [Mapper.mapPage, bind_ok hrun₁, hrun₂]
  cases hrun'.symm.trans hrun
  have hsame : h'.bitmap = h₁.bitmap := by
    simp only [storeLeaf, hat (idx depth)] at hrun₂
    cases hrun₂
    rfl
  rw [hsame] at hbit
  refine (descend_page ht hroot hsee (Nat.le_refl _) hfree hrun₁ hbit).imp_right ?_
  rintro ⟨j, h0, hj, hb'⟩
  exact ⟨j, h0, hj, hg₂.old hj hb'⟩

end

/-! ## The round trip -/

/-- Mapping and then unmapping succeeds, and leaves every translation and the allocator as they
were. -/
def RoundTrip {A : Type} (walk : (Nat → Word) → Nat → Option A) (map unmap : HostM Unit) (h : Host) :
    Prop :=
  ∃ h₁ h₂, map h = .ok () h₁ ∧ unmap h₁ = .ok () h₂ ∧ (∀ va, walk h₂.mem va = walk h.mem va) ∧
    h₂.bitmap = h.bitmap

/-- The tables, the translations and the allocator are as before. -/
structure Undone (M : Mapper L) (root depth : Nat) (h h' : Host) : Prop where
  tables : ∀ {idx k}, k ≤ depth →
    tableAt M.format h'.mem root idx k = tableAt M.format h.mem root idx k
  walks : ∀ {O : Type} (leaf : Word → Option O), (∀ e, M.live e = false → leaf e = none) →
    ∀ idx, lookup M.format leaf h'.mem root depth idx = lookup M.format leaf h.mem root depth idx
  bitmap : h'.bitmap = h.bitmap

section

variable {M : Mapper L} {root depth rt : Nat} {h h₁ h₂ : Host} {idx : Nat → Fin 512} {e : Word}

/-- Mapping a page and unmapping it: how the tree grew and shrank, and that the page no longer
translates. -/
theorem mapPage_unmapAt (ht : Tables M root depth h) (hroot : M.At rt root) (hrt : rt ≠ 0)
    (hsee : Sees M root depth h idx) (he : M.live e = true) (hbase : M.base e ≠ 0)
    (hfree : missing M root h idx depth ≤ evenFree h.bitmap M.half) :
    ∃ h₁ h₂, M.mapPage rt depth idx e h = .ok () h₁ ∧ M.unmapAt idx depth 0 rt h₁ = .ok () h₂ ∧
      Grown M root depth (fun idx' j => AgreeTo j idx' idx) (missing M root h idx depth) h h₁ ∧
      Pruned M root depth idx 0 h₁ h₂ ∧
      (∀ idx', lookup M.format M.alive h₁.mem root depth idx' =
        if AgreeTo (depth + 1) idx' idx then some ()
        else lookup M.format M.alive h.mem root depth idx') ∧
      ∀ {O : Type} (leaf : Word → Option O), (∀ e, M.live e = false → leaf e = none) → ∀ idx',
        lookup M.format leaf h₂.mem root depth idx' =
          if AgreeTo (depth + 1) idx' idx then none
          else lookup M.format leaf h.mem root depth idx' := by
  obtain ⟨h₁, b, l, hrun, -, -, -, hg, hw⟩ := mapPage_good ht hroot hsee e hfree
  have hpres : M.present e = some () := by
    rw [Mapper.present, he, Bool.true_and, if_pos (bne_iff_ne.mpr hbase)]
  have hmapped : Mapped M root depth h₁ idx := by
    rw [Mapped, hw M.present (present_of_dead M.live_zero), if_pos (AgreeTo.refl _ _), hpres]
  obtain ⟨h₂, hrun₂, hp⟩ := unmapAt_mapped hg.tables hroot hrt (hsee.grown hg) hmapped
  refine ⟨h₁, h₂, hrun, hrun₂, hg, hp, fun idx' => ?_, fun leaf hdead idx' => ?_⟩
  · rw [hw M.alive alive_zero, alive_live he]
  · rw [hp.walks leaf hdead]
    split
    · rfl
    · next hag => rw [hw leaf (hdead 0 M.live_zero), if_neg hag]

/-- A page without live entry has no translation. -/
theorem lookup_of_empty {O : Type} {leaf : Word → Option O}
    (hempty : lookup M.format M.alive h.mem root depth idx = none)
    (hdead : ∀ e, M.live e = false → leaf e = none) :
    lookup M.format leaf h.mem root depth idx = none := by
  rw [lookup] at hempty ⊢
  refine Option.bind_eq_none_iff.mpr fun bl hbl => hdead _ ?_
  rw [hbl, Option.bind_some, Mapper.alive] at hempty
  split at hempty
  · cases hempty
  · next hlive => exact Bool.eq_false_iff.mpr hlive

/-- Mapping a page of a trim tree that has no live entry, and unmapping it again, changes
nothing. -/
theorem mapPage_undone (ht : Tables M root depth h)
    (htrim : Trim M.format M.alive h.mem root depth) (hroot : M.At rt root) (hrt : rt ≠ 0)
    (hsee : Sees M root depth h idx)
    (hempty : lookup M.format M.alive h.mem root depth idx = none) (he : M.live e = true)
    (hbase : M.base e ≠ 0) (hfree : missing M root h idx depth ≤ evenFree h.bitmap M.half) :
    ∃ h₁ h₂, M.mapPage rt depth idx e h = .ok () h₁ ∧ M.unmapAt idx depth 0 rt h₁ = .ok () h₂ ∧
      Tables M root depth h₂ ∧ Undone M root depth h h₂ := by
  obtain ⟨h₁, h₂, hrun, hrun₂, hg, hp, hlive, hw⟩ :=
    mapPage_unmapAt ht hroot hrt hsee he hbase hfree
  have hall {O : Type} (leaf : Word → Option O) (hdead : ∀ e, M.live e = false → leaf e = none)
      (idx' : Nat → Fin 512) : lookup M.format leaf h₂.mem root depth idx' =
        lookup M.format leaf h.mem root depth idx' := by
    rw [hw leaf hdead]
    split
    · next hag => rw [lookup_congr hag, lookup_of_empty hempty hdead]
    · rfl
  have htrim₁ : Trim M.format M.alive h₁.mem root depth := by
    refine trim_grown htrim hg (fun {idx' k} hag => ⟨idx, AgreeTo.symm hag, ?_⟩) fun idx' hl => ?_
    · rw [hlive, if_pos (AgreeTo.refl _ _)]
      rfl
    · rw [hlive]
      split
      · rfl
      · exact hl
  have htabs {idx' : Nat → Fin 512} {k : Nat} (hk : k ≤ depth) :
      tableAt M.format h₂.mem root idx' k = tableAt M.format h.mem root idx' k := by
    have hpaths : (tableAt M.format h₂.mem root idx' k).isSome ↔
        (tableAt M.format h.mem root idx' k).isSome :=
      htrim.same_paths (trim_pruned htrim₁ hp)
        (fun idx' => by rw [hall M.alive (fun _ => alive_dead)]) hk
    cases hb : tableAt M.format h.mem root idx' k with
    | none =>
      rw [hb] at hpaths
      exact Option.not_isSome_iff_eq_none.mp fun hc => Bool.false_ne_true (hpaths.mp hc)
    | some b =>
      obtain ⟨c, hc⟩ := Option.isSome_iff_exists.mp (hpaths.mpr (Option.isSome_of_eq_some hb))
      rw [hc]
      exact (hp.old hk hc).symm.trans (hg.old hk hb)
  refine ⟨h₁, h₂, hrun, hrun₂, hp.tables, htabs, hall, ext_bit fun n => ?_⟩
  rw [Bool.eq_iff_iff, hp.bits]
  constructor
  · rintro ⟨hbit, hkept⟩
    rcases mapPage_page ht hroot hsee hfree hrun hbit with hold | ⟨j, h0, hj, hb⟩
    · exact hold
    · cases hb₂ : tableAt M.format h₂.mem root idx j with
      | none => exact absurd ⟨j, h0, hj, hb, hb₂⟩ hkept
      | some c =>
        rw [htabs hj] at hb₂
        obtain ⟨p, -, hpc, hset⟩ := ht.owned h0 hj hb₂
        have hcb := (hg.old hj hb₂).symm.trans hb
        rwa [← L.physPage_inj (hpc.symm.trans (Option.some.inj hcb))]
  · intro hbit
    refine ⟨hg.bit_mono hbit, ?_⟩
    rintro ⟨j, h0, hj, hb, hgone⟩
    rw [htabs hj] at hgone
    rcases hg.low hj hb with hold | ⟨p, -, hpc, hclear⟩
    · rw [hgone] at hold
      cases hold
    · rw [← L.physPage_inj hpc, hbit] at hclear
      cases hclear

end

/-! ## The other direction -/

section

variable {M : Mapper L} {root depth rt : Nat} {h h₁ h₂ : Host} {idx : Nat → Fin 512} {e : Word}

/-- Tables that are seen are in reach, where those out of reach are not. -/
theorem Sees.reached (ht : Tables M root depth h) (hblind : M.BlindHigh)
    (hsee : Sees M root depth h idx) : Reached M root depth h idx := by
  intro j b h0 hj hb
  refine (reach_or_blind ht hblind h0 hj hb).resolve_right fun hno => ?_
  have hat := hsee j b h0 hj hb 0
  rw [hno 0] at hat
  cases hat

/-- Mapping a page returns only if its tables are in reach and the missing ones find pages there. -/
theorem mapPage_room (ht : Tables M root depth h) (hroot : M.At rt root) (hblind : M.BlindHigh)
    (hfault : M.FaultsHigh) (hsome : missing M root h idx depth ≤ evenFree h.bitmap (2 ^ 19))
    (hrun : M.mapPage rt depth idx e h = .ok () h₁) :
    Reached M root depth h idx ∧ missing M root h idx depth ≤ evenFree h.bitmap M.half := by
  have hreach : Reached M root depth h idx :=
    Classical.byContradiction fun hno => (mapPage_fails ht hroot hblind hno e).not_ok hrun
  refine ⟨hreach, Nat.le_of_not_lt fun hlow => ?_⟩
  have hspoiled : Spoiled M h (M.descend rt idx depth h) :=
    descend_spoiled ht hroot hreach.sees (List.nil_append _).symm (Nat.le_refl _) hlow hsome
  exact ((hspoiled.fails hfault).bind _).not_ok hrun

/-- A page that was mapped and unmapped: the tree has grown on its path, and shrunk there. -/
theorem mapped_unmapped (ht : Tables M root depth h) (hroot : M.At rt root) (hrt : rt ≠ 0)
    (hblind : M.BlindHigh) (hsee : Sees M root depth h idx)
    (hfree : missing M root h idx depth ≤ evenFree h.bitmap M.half)
    (hrun : M.mapPage rt depth idx e h = .ok () h₁)
    (hrun₂ : M.unmapAt idx depth 0 rt h₁ = .ok () h₂) :
    Grown M root depth (fun idx' j => AgreeTo j idx' idx) (missing M root h idx depth) h h₁ ∧
      Pruned M root depth idx 0 h₁ h₂ := by
  obtain ⟨h₁', b, l, hrun', -, -, -, hg, -⟩ := mapPage_good ht hroot hsee e hfree
  cases hrun'.symm.trans hrun
  have hm := (unmapAt_ok hg.tables hblind (Nat.zero_add depth) rfl hroot hrt hrun₂).1
  obtain ⟨h₂', hrun₂', hp⟩ := unmapAt_mapped hg.tables hroot hrt (hsee.grown hg) hm
  cases hrun₂'.symm.trans hrun₂
  exact ⟨hg, hp⟩

end

end HyperCore.TableMap
