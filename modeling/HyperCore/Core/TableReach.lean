import HyperCore.Core.TableShrink

/-!
# Tables out of reach

A tree may hold tables that a mapper cannot access: the direct map ends before the
pool does, and a tree built without an MMU can have tables past its end. Where such
an access faults (`BlindHigh`), mapping or unmapping a page succeeds only if every
table on its path is in reach. Together with `mapPages_good` and `unmapPages_good`
this makes reach an exact condition.
-/

namespace HyperCore.TableMap

open RadixTable Bitmap PageAlloc ArchPage

variable {L : Layout}

/-- Tables past `2 * half` cannot be accessed at all. -/
def Mapper.BlindHigh (M : Mapper L) : Prop :=
  ∀ p : Nat, 2 * M.half ≤ p → p < 2 ^ 20 → ∀ i : Fin 512,
    M.tr (M.tableAddr (L.physPage p) + 8 * i) = none

/-- The tables on the path of `idx` are pages in reach. -/
def Reached (M : Mapper L) (root depth : Nat) (h : Host) (idx : Nat → Fin 512) : Prop :=
  ∀ j b, 0 < j → j ≤ depth → tableAt M.format h.mem root idx j = some b →
    ∃ p, p < 2 * M.half ∧ b = L.physPage p

theorem Reached.sees {M : Mapper L} {root depth : Nat} {h : Host} {idx : Nat → Fin 512}
    (hr : Reached M root depth h idx) : Sees M root depth h idx := by
  intro j b h0 hj hb
  obtain ⟨p, hp, rfl⟩ := hr j b h0 hj hb
  exact M.tr_table hp

/-- The run did not return. -/
def Fails {α : Type} (r : EStateM.Result Stop Host α) : Prop := ∃ e h, r = .error e h

theorem Fails.bind {α β : Type} {x : HostM α} {h : Host} (hx : Fails (x h)) (f : α → HostM β) :
    Fails ((x >>= f) h) := by
  obtain ⟨e, h', he⟩ := hx
  exact ⟨e, h', bind_error he⟩

theorem Fails.not_ok {α : Type} {r : EStateM.Result Stop Host α} (hr : Fails r) {a : α} {h : Host} :
    r ≠ .ok a h := by
  obtain ⟨e, h', rfl⟩ := hr
  exact nofun

/-- Where pages out of reach fault, a spoiled call fails. -/
theorem Spoiled.fails {M : Mapper L} {α : Type} {h : Host} {r : EStateM.Result Stop Host α}
    (hs : Spoiled M h r) (hf : M.FaultsHigh) : Fails r := by
  cases r with
  | error e h' => exact ⟨e, h', rfl⟩
  | ok a h' => exact absurd hf hs.1

theorem Fails.spoiled {M : Mapper L} {α : Type} {h : Host} {r : EStateM.Result Stop Host α}
    (hr : Fails r) : Spoiled M h r := by
  obtain ⟨e, h', rfl⟩ := hr
  exact trivial

section

variable {M : Mapper L} {root depth rt k b : Nat} {h : Host} {idx : Nat → Fin 512}

theorem load_fails {t i : Nat} (htr : M.tr (t + 8 * i) = none) :
    Fails (load M.tr (t + 8 * i) h) := ⟨.fault, h, by simp only [load, htr]⟩

/-- A table of the tree is in reach, or no access to it succeeds. -/
theorem reach_or_blind (ht : Tables M root depth h) (hblind : M.BlindHigh) (h0 : 0 < k)
    (hk : k ≤ depth) (hb : tableAt M.format h.mem root idx k = some b) :
    (∃ p, p < 2 * M.half ∧ b = L.physPage p) ∨
      ∀ i : Fin 512, M.tr (M.tableAddr b + 8 * i) = none := by
  obtain ⟨p, hp, rfl, -⟩ := ht.owned h0 hk hb
  rcases Nat.lt_or_ge p (2 * M.half) with hlt | hge
  · exact .inl ⟨p, hlt, rfl⟩
  · exact .inr (hblind p hge (by omega))

/-- The pointer to level `k` of a path: the root pointer, or the address of the table. -/
def Mapper.pointer (M : Mapper L) (rt k b : Nat) : Nat := if k = 0 then rt else M.tableAddr b

theorem at_or_blind (ht : Tables M root depth h) (hroot : M.At rt root) (hblind : M.BlindHigh)
    (hk : k ≤ depth) (hb : tableAt M.format h.mem root idx k = some b) :
    M.At (M.pointer rt k b) b ∨
      0 < k ∧ ∀ i : Fin 512, M.tr (M.pointer rt k b + 8 * i) = none := by
  unfold Mapper.pointer
  cases k with
  | zero =>
    cases hb
    exact .inl hroot
  | succ k =>
    rw [if_neg (Nat.succ_ne_zero k)]
    rcases reach_or_blind ht hblind (Nat.succ_pos k) hk hb with ⟨p, hp, rfl⟩ | hno
    · exact .inl (M.tr_table hp)
    · exact .inr ⟨Nat.succ_pos k, hno⟩

/-- The descent along existing tables changes nothing: it ends at the table if those above are in
reach, and faults at the first that is not. -/
theorem descend_quiet (hroot : M.At rt root)
    (hor : ∀ j c, 0 < j → j < k → tableAt M.format h.mem root idx j = some c →
      M.At (M.tableAddr c) c ∨ ∀ i : Fin 512, M.tr (M.tableAddr c + 8 * i) = none)
    (hb : tableAt M.format h.mem root idx k = some b) :
    M.descend rt idx k h = .ok (M.pointer rt k b) h ∧
        (∀ j c, 0 < j → j < k → tableAt M.format h.mem root idx j = some c →
          M.At (M.tableAddr c) c) ∨
      M.descend rt idx k h = .error .fault h ∧
        ∃ j c, 0 < j ∧ j < k ∧ tableAt M.format h.mem root idx j = some c ∧
          ∀ i : Fin 512, M.tr (M.tableAddr c + 8 * i) = none := by
  induction k generalizing b with
  | zero => exact .inl ⟨rfl, fun j _ _ hj => absurd hj (Nat.not_lt_zero j)⟩
  | succ k ih =>
    obtain ⟨b', hb', -⟩ := tableAt_prefix hb
    rw [Mapper.descend]
    rcases ih (fun j c h0 hj => hor j c h0 (Nat.lt_succ_of_lt hj)) hb' with
      ⟨hrun, hsee⟩ | ⟨hrun, j, c, h0, hj, hc, hdark⟩
    · rw [bind_ok hrun]
      cases k with
      | zero =>
        cases hb'
        refine .inl ⟨nextTable_hit hroot rfl hb, fun j _ h0 hj => absurd h0 ?_⟩
        rw [Nat.lt_one_iff.mp hj]
        exact Nat.lt_irrefl 0
      | succ k =>
        have hptr : M.pointer rt (k + 1) b' = M.tableAddr b' := if_neg (Nat.succ_ne_zero k)
        rw [hptr]
        rcases hor (k + 1) b' (Nat.succ_pos k) (Nat.lt_succ_self _) hb' with hat | hdark
        · refine .inl ⟨nextTable_hit hat hb' hb, fun j c h0 hj hc => ?_⟩
          rcases Nat.eq_or_lt_of_le (Nat.le_of_lt_succ hj) with rfl | hlt
          · rw [hb'] at hc
            exact Option.some.inj hc ▸ hat
          · exact hsee j c h0 hlt hc
        · refine .inr ⟨?_, k + 1, b', Nat.succ_pos k, Nat.lt_succ_self _, hb', hdark⟩
          have hload : load M.tr (M.tableAddr b' + 8 * idx (k + 1)) h = .error .fault h := by
            simp only [load, hdark (idx (k + 1))]
          rw [Mapper.nextTable, bind_error hload]
    · exact .inr ⟨bind_error hrun, j, c, h0, Nat.lt_succ_of_lt hj, hc, hdark⟩

/-- The descent along existing tables fails, or ends at the table. -/
theorem descend_known (ht : Tables M root depth h) (hroot : M.At rt root) (hblind : M.BlindHigh)
    (hk : k ≤ depth) (hb : tableAt M.format h.mem root idx k = some b) :
    Fails (M.descend rt idx k h) ∨ M.descend rt idx k h = .ok (M.pointer rt k b) h := by
  have hor (j c : Nat) (h0 : 0 < j) (hj : j < k)
      (hc : tableAt M.format h.mem root idx j = some c) :
      M.At (M.tableAddr c) c ∨ ∀ i : Fin 512, M.tr (M.tableAddr c + 8 * i) = none := by
    have hor := at_or_blind ht hroot hblind (Nat.le_of_lt (Nat.lt_of_lt_of_le hj hk)) hc
    rw [Mapper.pointer, if_neg (Nat.ne_of_gt h0)] at hor
    exact hor.imp_right fun hdark => hdark.2
  rcases descend_quiet hroot hor hb with ⟨hrun, -⟩ | ⟨hrun, -⟩
  · exact .inr hrun
  · exact .inl ⟨.fault, h, hrun⟩

theorem descend_fails_mono {j : Nat} (hjk : j ≤ k) (hf : Fails (M.descend rt idx j h)) :
    Fails (M.descend rt idx k h) := by
  induction k with
  | zero => rwa [Nat.le_zero.mp hjk] at hf
  | succ k ih =>
    rcases Nat.lt_or_ge k j with hlt | hge
    · rwa [Nat.le_antisymm hjk hlt] at hf
    · exact (ih hge).bind _

/-- With a table out of reach on the path the descent fails, or what follows it does. -/
theorem descend_bind_fails {β : Type} {f : Nat → HostM β} (ht : Tables M root depth h)
    (hroot : M.At rt root) (hblind : M.BlindHigh) (hno : ¬ Reached M root depth h idx)
    (hf : ∀ t, (∀ i : Fin 512, M.tr (t + 8 * i) = none) → Fails (f t h)) :
    Fails ((M.descend rt idx depth >>= f) h) := by
  simp only [Reached, Classical.not_forall] at hno
  obtain ⟨j, b, h0, hj, hb, hout⟩ := hno
  have hdark := (reach_or_blind ht hblind h0 hj hb).resolve_left hout
  have hptr : M.pointer rt j b = M.tableAddr b := if_neg (Nat.ne_of_gt h0)
  rcases descend_known ht hroot hblind hj hb with hfail | hrun
  · exact (descend_fails_mono hj hfail).bind _
  · rw [hptr] at hrun
    rcases Nat.lt_or_ge j depth with hlt | hge
    · -- the next level reads an entry of the table
      refine (descend_fails_mono hlt ?_).bind _
      rw [Mapper.descend, bind_ok hrun]
      exact (load_fails (hdark (idx j))).bind _
    · cases Nat.le_antisymm hj hge
      rw [bind_ok hrun]
      exact hf _ hdark

/-- A page with a table out of reach on its path cannot be mapped. -/
theorem mapPage_fails (ht : Tables M root depth h) (hroot : M.At rt root) (hblind : M.BlindHigh)
    (hno : ¬ Reached M root depth h idx) (e : Word) : Fails (M.mapPage rt depth idx e h) :=
  descend_bind_fails ht hroot hblind hno fun t hdark =>
    ⟨.fault, h, by simp only [storeLeaf, hdark (idx depth)]⟩

/-- Through a pointer to nothing, nothing can be unmapped. -/
theorem unmapAt_blind {t n : Nat} (ht0 : t ≠ 0) (hno : ∀ i : Fin 512, M.tr (t + 8 * i) = none) :
    Fails (M.unmapAt idx n k t h) := by
  have hload := load_fails (h := h) (hno (idx k))
  cases n with
  | zero =>
    rw [Mapper.unmapAt, if_neg ht0]
    exact hload.bind _
  | succ n =>
    rw [Mapper.unmapAt, if_neg ht0]
    exact hload.bind _

/-- `hyper_fatal` does not return. -/
theorem fatal_bind_ne {α β : Type} {f : α → HostM β} {r : β} {h' : Host} :
    (fatal >>= f) h ≠ .ok r h' := Fails.not_ok (Fails.bind ⟨.fatal, h, rfl⟩ f)

/-- Unmapping returns only for a mapped page with its tables in reach. -/
theorem unmapAt_ok {n : Nat} {h' : Host} (ht : Tables M root depth h) (hblind : M.BlindHigh) :
    ∀ {k t b}, k + n = depth → tableAt M.format h.mem root idx k = some b → M.At t b → t ≠ 0 →
      M.unmapAt idx n k t h = .ok () h' → Mapped M root depth h idx ∧
        ∀ j c, k < j → j ≤ depth → tableAt M.format h.mem root idx j = some c →
          ∃ p, p < 2 * M.half ∧ c = L.physPage p := by
  induction n generalizing h' with
  | zero =>
    intro k t b hk hb hat ht0 hrun
    obtain rfl : k = depth := hk
    refine ⟨?_, fun j c hkj hj => absurd hkj (Nat.not_lt.mpr hj)⟩
    rw [Mapper.unmapAt, if_neg ht0, bind_ok (load_at hat _ h)] at hrun
    rw [Mapped, lookup, hb, Option.bind_some, Mapper.present, if_pos]
    cases hpres : M.live (h.mem (slot b (idx k))) && M.base (h.mem (slot b (idx k))) != 0 with
    | true => rfl
    | false =>
      have hbad : (!M.live (h.mem (slot b (idx k))) || M.base (h.mem (slot b (idx k))) == 0) =
          true := by
        rw [← Bool.not_eq_false', Bool.not_or, Bool.not_not]
        exact hpres
      rw [if_pos hbad] at hrun
      exact absurd hrun fatal_bind_ne
  | succ n ih =>
    intro k t b hk hb hat ht0 hrun
    have hkd : k < depth := by omega
    rw [Mapper.unmapAt, if_neg ht0, bind_ok (load_at hat _ h)] at hrun
    cases hc : tableAt M.format h.mem root idx (k + 1) with
    | none =>
      have hbad : (!M.live 0 || M.base 0 == 0) = true := by
        rw [M.live_zero]
        rfl
      rw [entry_of_none ht hkd hb hc, if_pos hbad] at hrun
      exact absurd hrun fatal_bind_ne
    | some c =>
      obtain ⟨p, hp, rfl, -⟩ := ht.owned (Nat.succ_pos k) hkd hc
      obtain ⟨hv, -, hbc⟩ := M.of_next (tableAt_succ hb ▸ hc)
      have hne : L.physPage p ≠ 0 := Nat.ne_of_gt (L.physPage_pos p)
      have hta : M.tableAddr (L.physPage p) ≠ 0 := M.tableAddr_ne (by omega)
      simp only [M.live_of_valid hv, Bool.not_true, Bool.false_or, beq_iff_eq, hne, if_false,
        hbc] at hrun
      obtain ⟨_, h₁, hnext, -⟩ := bind_eq_ok hrun
      rcases reach_or_blind ht hblind (Nat.succ_pos k) hkd hc with ⟨q, hq, he⟩ | hdark
      · obtain ⟨hm, hreach⟩ := ih (by omega) hc (he ▸ M.tr_table hq) hta hnext
        refine ⟨hm, fun j c hkj hj hjc => ?_⟩
        rcases Nat.eq_or_lt_of_le (Nat.succ_le_of_lt hkj) with rfl | hlt
        · rw [hc] at hjc
          exact ⟨q, hq, (Option.some.inj hjc).symm.trans he⟩
        · exact hreach j c hlt hj hjc
      · exact absurd hnext (unmapAt_blind hta hdark).not_ok

/-- A run that does not return fails. -/
theorem fails_of_not_ok {α : Type} {r : EStateM.Result Stop Host α} (hr : ∀ a h, r ≠ .ok a h) :
    Fails r := by
  cases r with
  | error e h => exact ⟨e, h, rfl⟩
  | ok a h => exact absurd rfl (hr a h)

end

/-! ## Ranges -/

section

variable {M : Mapper L} {root depth rt : Nat} {h : Host} {idx : Nat → Nat → Fin 512}

/-- Mapping a range with a table out of reach on some path fails. -/
theorem mapPages_fails (ht : Tables M root depth h) (hroot : M.At rt root) (hblind : M.BlindHigh)
    (hfault : M.FaultsHigh) (e : Nat → Word) {n : Nat}
    (hsome : needed M root depth h idx n ≤ evenFree h.bitmap (2 ^ 19))
    (hno : ¬ ∀ i, i < n → Reached M root depth h (idx i)) :
    Fails (M.mapPages rt depth idx e n h) := by
  induction n with
  | zero => exact absurd (fun _ => nofun) hno
  | succ n ih =>
    rw [Mapper.mapPages, forRounds, ← Mapper.mapPages]
    have hsome' : needed M root depth h idx n ≤ evenFree h.bitmap (2 ^ 19) := by
      rw [needed] at hsome
      omega
    by_cases hprev : ∀ i, i < n → Reached M root depth h (idx i)
    · have hsee : ∀ i, i < n → Sees M root depth h (idx i) := fun i hi => (hprev i hi).sees
      rcases Nat.lt_or_ge (evenFree h.bitmap M.half) (needed M root depth h idx n) with hlow | hfree
      · exact ((mapPages_spoiled ht hroot e hsee hlow hsome').fails hfault).bind _
      · obtain ⟨h₁, hrun, hg, -⟩ := mapPages_good ht hroot e hsee hfree
        rw [bind_ok hrun]
        refine mapPage_fails hg.tables hroot hblind (fun hr => hno fun i hi => ?_) _
        rcases Nat.lt_or_ge i n with hlt | hge
        · exact hprev i hlt
        · cases Nat.le_antisymm (Nat.le_of_lt_succ hi) hge
          exact fun j b h0 hj hb => hr j b h0 hj (hg.old hj hb)
    · exact (ih hsome' hprev).bind _

/-- Unmapping a range returns only if all its pages are mapped, with their tables in reach. -/
theorem unmapPages_ok {n : Nat} {h' : Host} (ht : Tables M root depth h) (hroot : M.At rt root)
    (hrt : rt ≠ 0) (hblind : M.BlindHigh)
    (hdist : ∀ i j, i < j → j < n → ¬ AgreeTo (depth + 1) (idx j) (idx i))
    (hrun : forRounds (fun i => M.unmapAt (idx i) depth 0 rt) n h = .ok () h') :
    ∀ i, i < n → Mapped M root depth h (idx i) ∧ Reached M root depth h (idx i) := by
  induction n generalizing h' with
  | zero =>
    intro i hi
    cases hi
  | succ n ih =>
    rw [forRounds] at hrun
    obtain ⟨_, h₁, hrun₁, hlast⟩ := bind_eq_ok hrun
    have hdist' (i j : Nat) (hij : i < j) (hj : j < n) :
        ¬ AgreeTo (depth + 1) (idx j) (idx i) := hdist i j hij (Nat.lt_succ_of_lt hj)
    have hprev := ih hdist' hrun₁
    obtain ⟨h₁', hrun₁', ht₁, hold, hw⟩ := unmapPages_good ht hroot hrt
      (fun i hi => (hprev i hi).2.sees) hdist' fun i hi => (hprev i hi).1
    cases hrun₁'.symm.trans hrun₁
    obtain ⟨hm, hreach⟩ := unmapAt_ok ht₁ hblind (Nat.zero_add depth) rfl hroot hrt hlast
    have hn := Nat.lt_succ_self n
    intro i hi
    rcases Nat.eq_or_lt_of_le (Nat.le_of_lt_succ hi) with rfl | hlt
    · refine ⟨((hw M.present fun _ => present_of_dead).2 _ fun j hj => hdist j i hj hn).symm.trans hm,
        fun j b h0 hj hb => ?_⟩
      -- the path of the page is complete, so its tables are still the old ones
      obtain ⟨bl, hbl, -⟩ := hm.entry
      obtain ⟨b', hb'⟩ := Option.isSome_iff_exists.mp
        (tableAt_isSome_of_le hj (Option.isSome_of_eq_some hbl))
      have hsame : b' = b := Option.some.inj ((hold hj hb').symm.trans hb)
      exact hsame ▸ hreach j b' h0 hj hb'
    · exact hprev i hlt

/-- Unmapping a range with a table out of reach on some path fails. -/
theorem unmapPages_fails {n : Nat} (ht : Tables M root depth h) (hroot : M.At rt root)
    (hrt : rt ≠ 0) (hblind : M.BlindHigh)
    (hdist : ∀ i j, i < j → j < n → ¬ AgreeTo (depth + 1) (idx j) (idx i))
    (hno : ¬ ∀ i, i < n → Reached M root depth h (idx i)) :
    Fails (forRounds (fun i => M.unmapAt (idx i) depth 0 rt) n h) := by
  refine fails_of_not_ok fun a h' hrun => hno fun i hi => ?_
  exact (unmapPages_ok ht hroot hrt hblind hdist hrun i hi).2

end

end HyperCore.TableMap
