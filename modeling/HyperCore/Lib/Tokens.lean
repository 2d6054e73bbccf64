import Mathlib

/-!
# Keys at the start of a token

A text is a list of tokens with a separator between them. `after` is the scan for a key at the start
of a token: what follows the key at the first such place. The scan looks at the text and not at the
tokens, so a key with a separator in it may reach into the next token; for any other key the scan
finds the first token that starts with it (`find_token`).
-/

namespace Tokens

variable {α : Type} [DecidableEq α] {sep : α} {key : List α}

/-- What follows `key` at the first start of a token; `start` tells whether a token may start
here. -/
def after (sep : α) (key : List α) : (start : Bool) → List α → Option (List α)
  | _, [] => none
  | start, c :: s =>
    if start = true ∧ c ≠ sep ∧ key <+: c :: s then some ((c :: s).drop key.length)
    else after sep key (c == sep) s

/-- The text up to the next separator. -/
def token (sep : α) (s : List α) : List α := s.takeWhile fun c => c != sep

theorem token_cons_sep (s : List α) : token sep (sep :: s) = [] := by
  simp [token]

theorem token_cons {c : α} (hc : c ≠ sep) (s : List α) : token sep (c :: s) = c :: token sep s := by
  simp [token, hc]

theorem token_append (hsep : sep ∉ key) (s : List α) : token sep (key ++ s) = key ++ token sep s := by
  refine List.takeWhile_append_of_pos fun c hc => ?_
  rw [bne_iff_ne]
  rintro rfl
  exact hsep hc

/-- A key without a separator is a prefix of the text iff it is one of its first token. -/
theorem prefix_token (hsep : sep ∉ key) (s : List α) : key <+: token sep s ↔ key <+: s := by
  constructor
  · intro h
    exact h.trans (List.takeWhile_prefix _)
  · rintro ⟨r, rfl⟩
    rw [token_append hsep]
    exact List.prefix_append _ _

/-- The tokens of a text: the first, and those behind its separator. -/
theorem splitOnP_eq (sep : α) (s : List α) :
    ∃ rest, s.splitOnP (· == sep) = token sep s :: rest := by
  induction s with
  | nil => exact ⟨[], rfl⟩
  | cons c s ih =>
    obtain ⟨rest, hrest⟩ := ih
    rw [List.splitOnP_cons_eq_if_modifyHead]
    by_cases hc : c = sep
    · subst hc
      rw [if_pos (beq_self_eq_true c), token_cons_sep]
      exact ⟨_, rfl⟩
    · rw [if_neg (by simpa using hc), hrest, token_cons hc]
      exact ⟨rest, rfl⟩

theorem splitOnP_sep (s : List α) :
    (sep :: s).splitOnP (· == sep) = [] :: s.splitOnP (· == sep) := by
  rw [List.splitOnP_cons_eq_if_modifyHead, if_pos (beq_self_eq_true sep)]

theorem tail_splitOnP {c : α} (hc : c ≠ sep) (s : List α) :
    ((c :: s).splitOnP (· == sep)).tail = (s.splitOnP (· == sep)).tail := by
  obtain ⟨rest, hrest⟩ := splitOnP_eq sep s
  rw [List.splitOnP_cons_eq_if_modifyHead, if_neg (by simpa using hc), hrest]
  rfl

theorem after_sep (start : Bool) (s : List α) :
    after sep key start (sep :: s) = after sep key true s := by
  simp [after]

theorem after_inside {c : α} (hc : c ≠ sep) (s : List α) :
    after sep key false (c :: s) = after sep key false s := by
  rw [after, if_neg fun h => Bool.noConfusion h.1, beq_eq_false_iff_ne.mpr hc]

/-- Separators at the start make no difference. -/
theorem after_skip (s : List α) :
    after sep key true (s.dropWhile (· == sep)) = after sep key true s := by
  induction s with
  | nil => rfl
  | cons c s ih =>
    by_cases hc : c = sep
    · subst hc
      rw [List.dropWhile_cons_of_pos (by simp), ih, after_sep]
    · rw [List.dropWhile_cons_of_neg (by simpa using hc)]

/-- Inside a token the scan goes on at the next separator. -/
theorem after_seek (s : List α) :
    after sep key false s = after sep key true (s.dropWhile fun c => c != sep) := by
  induction s with
  | nil => rfl
  | cons c s ih =>
    by_cases hc : c = sep
    · subst hc
      rw [List.dropWhile_cons_of_neg (by simp), after_sep, after_sep]
    · rw [List.dropWhile_cons_of_pos (by simpa using hc), ← ih, after_inside hc]

/-- A key at the start is a hit. -/
theorem after_hit {s : List α} (hne : key ≠ []) (hhead : ∀ c ∈ s.head?, c ≠ sep) (h : key <+: s) :
    after sep key true s = some (s.drop key.length) := by
  cases s with
  | nil => exact absurd (List.prefix_nil.mp h) hne
  | cons c s => rw [after, if_pos ⟨rfl, hhead c rfl, h⟩]

/-- Otherwise the scan goes on at the next separator. -/
theorem after_miss {s : List α} (hhead : ∀ c ∈ s.head?, c ≠ sep) (h : ¬ key <+: s) :
    after sep key true s = after sep key true (s.dropWhile fun c => c != sep) := by
  cases s with
  | nil => rfl
  | cons c s =>
    have hc := hhead c rfl
    rw [after, if_neg fun hall => h hall.2.2, beq_eq_false_iff_ne.mpr hc, after_seek,
      List.dropWhile_cons_of_pos (by simpa using hc)]

/-- The scan finds the first token that starts with the key. Inside a token, at `start = false`, only
the tokens behind it count. -/
theorem find_tokens (hsep : sep ∉ key) (hne : key ≠ []) (s : List α) :
    (s.splitOnP (· == sep)).find? (fun t => key.isPrefixOf t) =
        (after sep key true s).map (fun r => key ++ token sep r) ∧
      (s.splitOnP (· == sep)).tail.find? (fun t => key.isPrefixOf t) =
        (after sep key false s).map (fun r => key ++ token sep r) := by
  have hnil : key.isPrefixOf [] = false := by
    cases key with
    | nil => exact absurd rfl hne
    | cons k key => rfl
  induction s with
  | nil =>
    rw [List.splitOnP_nil, List.find?_singleton, hnil]
    exact ⟨rfl, rfl⟩
  | cons c s ih =>
    obtain ⟨hstart, hinside⟩ := ih
    by_cases hc : c = sep
    · subst hc
      rw [splitOnP_sep, after_sep, after_sep, List.tail_cons, List.find?_cons, hnil]
      exact ⟨hstart, hstart⟩
    · have htail := tail_splitOnP hc s
      refine ⟨?_, by rw [htail, after_inside hc, hinside]⟩
      obtain ⟨rest, hrest⟩ := splitOnP_eq sep (c :: s)
      rw [hrest, List.tail_cons] at htail
      rw [hrest, List.find?_cons]
      by_cases hkey : key <+: c :: s
      · have htok : key.isPrefixOf (token sep (c :: s)) = true :=
          List.isPrefixOf_iff_prefix.mpr ((prefix_token hsep _).mpr hkey)
        obtain ⟨r, hr⟩ := hkey
        rw [htok, ← hr, token_append hsep]
        have hafter : after sep key true (c :: s) = some r := by
          rw [after, if_pos ⟨rfl, hc, ⟨r, hr⟩⟩, ← hr, List.drop_left]
        rw [hr, hafter]
        rfl
      · have htok : key.isPrefixOf (token sep (c :: s)) = false := by
          rw [Bool.eq_false_iff]
          exact fun h => hkey ((prefix_token hsep _).mp (List.isPrefixOf_iff_prefix.mp h))
        have hmiss : after sep key true (c :: s) = after sep key false s := by
          rw [after, if_neg fun h => hkey h.2.2, beq_eq_false_iff_ne.mpr hc]
        rw [htok, hmiss, ← hinside, htail]

theorem find_token (hsep : sep ∉ key) (hne : key ≠ []) (s : List α) :
    (s.splitOnP (· == sep)).find? (fun t => key.isPrefixOf t) =
      (after sep key true s).map (fun r => key ++ token sep r) :=
  (find_tokens hsep hne s).1

theorem sep_not_mem_token {s t : List α} (h : t ∈ s.splitOnP (· == sep)) : sep ∉ t := by
  induction s generalizing t with
  | nil =>
    rw [List.splitOnP_nil, List.mem_singleton] at h
    rw [h]
    exact List.not_mem_nil
  | cons c s ih =>
    by_cases hc : c = sep
    · subst hc
      rw [splitOnP_sep, List.mem_cons] at h
      rcases h with rfl | h
      · exact List.not_mem_nil
      · exact ih h
    · obtain ⟨rest, hrest⟩ := splitOnP_eq sep s
      rw [List.splitOnP_cons_eq_if_modifyHead, if_neg (by simpa using hc), hrest] at h
      rw [hrest] at ih
      rcases List.mem_cons.mp h with rfl | h
      · rw [List.mem_cons, not_or]
        exact ⟨fun he => hc he.symm, ih List.mem_cons_self⟩
      · exact ih (List.mem_cons_of_mem _ h)

/-- No token starts with a key that has a separator in it. -/
theorem find_none (hsep : sep ∈ key) (s : List α) :
    (s.splitOnP (· == sep)).find? (fun t => key.isPrefixOf t) = none := by
  refine List.find?_eq_none.mpr fun t ht hkey => sep_not_mem_token ht ?_
  exact (List.isPrefixOf_iff_prefix.mp hkey).subset hsep

end Tokens
