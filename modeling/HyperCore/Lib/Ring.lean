import Mathlib

/-!
# Circular doubly linked lists

Intrusive lists as two pointer maps over a type of nodes, with `none` for NULL. A list
head is a node like any other. `Ring m head l` says that the nodes of `l` hang off
`head` in this order, closed in both directions, each once.

The operations are those of a C list header: insertion between two neighbours,
insertion before a node, unlinking, a forward scan and a walk. Each has one lemma on rings:
what it makes of the list, and that every node outside the ring keeps its pointers
(`SameOutside`), which is what carries a second ring through the change.
-/

namespace LinkRing

/-- The `next` and `prev` pointers of all nodes. -/
structure Links (α : Type) where
  next : α → Option α
  prev : α → Option α

section

variable {α : Type} [DecidableEq α]

def Links.setNext (m : Links α) (a : α) (b : Option α) : Links α :=
  { m with next := Function.update m.next a b }

def Links.setPrev (m : Links α) (a : α) (b : Option α) : Links α :=
  { m with prev := Function.update m.prev a b }

/-- An empty list head, or a node linked to itself. -/
def initHead (m : Links α) (a : α) : Links α := (m.setNext a (some a)).setPrev a (some a)

/-- Insert `new` between the neighbours `prev` and `next`. -/
def insertBetween (m : Links α) (new prev next : α) : Links α :=
  (((m.setPrev next (some new)).setNext new (some next)).setPrev new (some prev)).setNext prev
    (some new)

/-- Insert `new` before `p`; a node without a predecessor cannot be inserted before. -/
def insertBefore (m : Links α) (new p : α) : Option (Links α) :=
  (m.prev p).map fun q => insertBetween m new q p

/-- Make the neighbours of a node point to each other. -/
def unlinkBetween (m : Links α) (prev next : α) : Links α :=
  (m.setPrev next (some prev)).setNext prev (some next)

/-- The first node of the list at which `p` holds, from node `x` on; `none` when the scan
runs into NULL or takes more than `fuel` steps. -/
def scanFrom (m : Links α) (head : α) (p : α → Bool) : (fuel : Nat) → α → Option (Option α)
  | 0, _ => none
  | fuel + 1, x =>
    if x = head then some none
    else if p x then some (some x)
    else (m.next x).bind (scanFrom m head p fuel)

/-- The scan from the first node on. -/
def scan (m : Links α) (head : α) (p : α → Bool) (fuel : Nat) : Option (Option α) :=
  (m.next head).bind (scanFrom m head p fuel)

/-- The nodes of the list from `x` on. -/
def walkFrom (m : Links α) (head : α) : (fuel : Nat) → α → Option (List α)
  | 0, _ => none
  | fuel + 1, x =>
    if x = head then some []
    else (m.next x).bind fun y => (walkFrom m head fuel y).map (x :: ·)

/-- All nodes of the list, in order. -/
def walk (m : Links α) (head : α) (fuel : Nat) : Option (List α) :=
  (m.next head).bind (walkFrom m head fuel)

end

/-! ## Paths and rings -/

section

variable {α : Type} {m m' : Links α} {a b x : α} {l l₁ l₂ : List α}

/-- `b` follows `a`, in both directions. -/
def Linked (m : Links α) (a b : α) : Prop := m.next a = some b ∧ m.prev b = some a

/-- From `a` over the nodes of `l` to `b`. -/
def Path (m : Links α) : α → List α → α → Prop
  | a, [], b => Linked m a b
  | a, x :: l, b => Linked m a x ∧ Path m x l b

structure Ring (m : Links α) (head : α) (l : List α) : Prop where
  path : Path m head l head
  nodup : (head :: l).Nodup

theorem path_append : Path m a (l₁ ++ x :: l₂) b ↔ Path m a l₁ x ∧ Path m x l₂ b := by
  induction l₁ generalizing a with
  | nil => exact Iff.rfl
  | cons y l₁ ih =>
    rw [List.cons_append, Path, Path, ih, and_assoc]

/-- A path depends on the `next` of its nodes but the last, and the `prev` of all but the first. -/
theorem Path.frame (h : Path m a l b) (hn : ∀ y ∈ a :: l, m'.next y = m.next y)
    (hp : ∀ y ∈ l ++ [b], m'.prev y = m.prev y) : Path m' a l b := by
  induction l generalizing a with
  | nil =>
    exact ⟨(hn a List.mem_cons_self).trans h.1, (hp b (by simp)).trans h.2⟩
  | cons x l ih =>
    refine ⟨⟨(hn a List.mem_cons_self).trans h.1.1, (hp x (by simp)).trans h.1.2⟩, ?_⟩
    exact ih h.2 (fun y hy => hn y (List.mem_cons_of_mem _ hy))
      (fun y hy => hp y (List.mem_cons_of_mem _ hy))

/-- Nodes outside `S` keep their pointers. -/
def SameOutside (m m' : Links α) (S : α → Prop) : Prop :=
  ∀ y, ¬ S y → m'.next y = m.next y ∧ m'.prev y = m.prev y

/-- A ring whose nodes are left alone. -/
theorem Ring.frame {head : α} {S : α → Prop} (h : Ring m head l) (hs : SameOutside m m' S)
    (hout : ∀ y ∈ head :: l, ¬ S y) : Ring m' head l := by
  refine ⟨h.path.frame (fun y hy => (hs y (hout y hy)).1) (fun y hy => (hs y ?_).2), h.nodup⟩
  refine hout y ?_
  rw [List.mem_append, List.mem_singleton] at hy
  rcases hy with hy | rfl
  · exact List.mem_cons_of_mem _ hy
  · exact List.mem_cons_self

/-- The last of `head :: l`. -/
def lastOf (head : α) (l : List α) : α := (head :: l).getLast (List.cons_ne_nil _ _)

theorem lastOf_cons : lastOf a (x :: l) = lastOf x l := List.getLast_cons (List.cons_ne_nil x l)

theorem lastOf_mem (head : α) (l : List α) : lastOf head l ∈ head :: l := List.getLast_mem _

/-- The node before the end of a path. -/
theorem Path.last (h : Path m a l b) : Linked m (lastOf a l) b := by
  induction l generalizing a with
  | nil => exact h
  | cons x l ih =>
    rw [lastOf_cons]
    exact ih h.2

/-- A path is led to another end by changing its last link. -/
theorem Path.retarget {b' : α} (h : Path m a l b) (hnd : (a :: l).Nodup)
    (hn : ∀ y ∈ a :: l, y ≠ lastOf a l → m'.next y = m.next y)
    (hp : ∀ y ∈ l, m'.prev y = m.prev y) (hlink : Linked m' (lastOf a l) b') : Path m' a l b' := by
  induction l generalizing a with
  | nil => exact hlink
  | cons x l ih =>
    rw [lastOf_cons] at hlink
    simp only [lastOf_cons] at hn
    have hne : a ≠ lastOf x l := by
      intro he
      exact (List.nodup_cons.mp hnd).1 (he ▸ lastOf_mem x l)
    refine ⟨⟨?_, ?_⟩, ?_⟩
    · rw [hn a List.mem_cons_self hne]
      exact h.1.1
    · rw [hp x List.mem_cons_self]
      exact h.1.2
    · exact ih h.2 (List.nodup_cons.mp hnd).2 (fun y hy => hn y (List.mem_cons_of_mem _ hy))
        (fun y hy => hp y (List.mem_cons_of_mem _ hy)) hlink

/-- The first part of a ring ends at the first node of the rest, or at the head. -/
theorem Ring.path_left {head : α} (h : Ring m head (l₁ ++ l₂)) :
    Path m head l₁ (l₂.headD head) := by
  cases l₂ with
  | nil =>
    have hpath := h.path
    rwa [List.append_nil] at hpath
  | cons r l₂ => exact (path_append.mp h.path).1

/-- The neighbours of a node of a ring. -/
theorem Ring.neighbours {head : α} (h : Ring m head (l₁ ++ x :: l₂)) :
    Linked m (lastOf head l₁) x ∧ Linked m x (l₂.headD head) := by
  obtain ⟨hleft, hright⟩ := path_append.mp h.path
  refine ⟨hleft.last, ?_⟩
  cases l₂ with
  | nil => exact hright
  | cons r l₂ => exact hright.1

/-! ### Where a ring is cut -/

section

variable {head : α} (hnd : (head :: (l₁ ++ l₂)).Nodup)
include hnd

theorem cut_left : (head :: l₁).Nodup := by
  rw [← List.cons_append] at hnd
  exact (List.nodup_append.mp hnd).1

theorem cut_apart {y : α} (hy : y ∈ l₂) : y ∉ head :: l₁ := by
  rw [← List.cons_append] at hnd
  exact fun hin => (List.nodup_append.mp hnd).2.2 y hin y hy rfl

theorem cut_ne_last {y : α} (hy : y ∈ l₂) : y ≠ lastOf head l₁ :=
  fun he => cut_apart hnd hy (he ▸ lastOf_mem head l₁)

theorem cut_ne_first {y : α} (hy : y ∈ l₁) : y ≠ l₂.headD head := by
  cases l₂ with
  | nil =>
    rintro rfl
    exact (List.nodup_cons.mp (cut_left hnd)).1 hy
  | cons r l₂ =>
    rintro rfl
    exact cut_apart hnd List.mem_cons_self (List.mem_cons_of_mem _ hy)

end

theorem cut_ne_rest {head r : α} (hnd : (head :: (l₁ ++ r :: l₂)).Nodup) {y : α}
    (hy : y ∈ l₂ ++ [head]) : y ≠ r := by
  rintro rfl
  rw [List.mem_append, List.mem_singleton] at hy
  rcases hy with hy | rfl
  · have hsub := (List.nodup_append.mp (List.nodup_cons.mp hnd).2).2.1
    exact (List.nodup_cons.mp hsub).1 hy
  · exact cut_apart hnd List.mem_cons_self List.mem_cons_self

end

/-! ## The operations on rings -/

section

variable {α : Type} [DecidableEq α] {m : Links α} {head : α} {l l₁ l₂ : List α}

theorem ring_initHead (m : Links α) (head : α) : Ring (initHead m head) head [] := by
  refine ⟨⟨?_, ?_⟩, List.nodup_singleton head⟩
  · simp [initHead, Links.setNext, Links.setPrev]
  · simp [initHead, Links.setNext, Links.setPrev]

theorem initHead_same (m : Links α) (a : α) : SameOutside m (initHead m a) (· = a) := by
  intro y hy
  simp [initHead, Links.setNext, Links.setPrev, Function.update_of_ne hy]

theorem insertBetween_next (m : Links α) (new q r y : α) :
    (insertBetween m new q r).next y =
      if y = q then some new else if y = new then some r else m.next y := by
  simp [insertBetween, Links.setNext, Links.setPrev, Function.update_apply]

theorem insertBetween_prev (m : Links α) (new q r y : α) :
    (insertBetween m new q r).prev y =
      if y = new then some q else if y = r then some new else m.prev y := by
  simp [insertBetween, Links.setNext, Links.setPrev, Function.update_apply]

theorem unlinkBetween_next (m : Links α) (q r y : α) :
    (unlinkBetween m q r).next y = if y = q then some r else m.next y := by
  simp [unlinkBetween, Links.setNext, Links.setPrev, Function.update_apply]

theorem unlinkBetween_prev (m : Links α) (q r y : α) :
    (unlinkBetween m q r).prev y = if y = r then some q else m.prev y := by
  simp [unlinkBetween, Links.setNext, Links.setPrev, Function.update_apply]

/-- Insertion before the first node of the rest. -/
theorem Ring.insert (h : Ring m head (l₁ ++ l₂)) {new : α} (hnew : new ∉ head :: (l₁ ++ l₂)) :
    ∃ m', insertBefore m new (l₂.headD head) = some m' ∧ Ring m' head (l₁ ++ new :: l₂) ∧
      SameOutside m m' fun y => y = new ∨ y ∈ head :: (l₁ ++ l₂) := by
  have hnd := h.nodup
  have hmem : ∀ {y}, y ∈ head :: (l₁ ++ l₂) → y ≠ new := fun hy he => hnew (he ▸ hy)
  have hq : lastOf head l₁ ∈ head :: (l₁ ++ l₂) := by
    rw [← List.cons_append]
    exact List.mem_append_left _ (lastOf_mem head l₁)
  have hr : l₂.headD head ∈ head :: (l₁ ++ l₂) := by
    cases l₂ <;> simp
  refine ⟨insertBetween m new (lastOf head l₁) (l₂.headD head), ?_, ⟨?_, ?_⟩, fun y hy => ?_⟩
  · rw [insertBefore, h.path_left.last.2]
    rfl
  · refine path_append.mpr ⟨h.path_left.retarget (cut_left hnd) ?_ ?_ ⟨?_, ?_⟩, ?_⟩
    · intro y hy hne
      have hyin : y ∈ head :: (l₁ ++ l₂) := by
        rw [← List.cons_append]
        exact List.mem_append_left _ hy
      rw [insertBetween_next, if_neg hne, if_neg (hmem hyin)]
    · intro y hy
      have hyin : y ∈ head :: (l₁ ++ l₂) := List.mem_cons_of_mem _ (List.mem_append_left _ hy)
      rw [insertBetween_prev, if_neg (hmem hyin), if_neg (cut_ne_first hnd hy)]
    · rw [insertBetween_next, if_pos rfl]
    · rw [insertBetween_prev, if_pos rfl]
    · have hlink : Linked (insertBetween m new (lastOf head l₁) (l₂.headD head)) new
          (l₂.headD head) := by
        refine ⟨?_, ?_⟩
        · rw [insertBetween_next, if_neg (hmem hq).symm, if_pos rfl]
        · rw [insertBetween_prev, if_neg (hmem hr), if_pos rfl]
      cases l₂ with
      | nil => exact hlink
      | cons r l₂ =>
        refine ⟨hlink, (path_append.mp h.path).2.frame (fun y hy => ?_) (fun y hy => ?_)⟩
        · have hyin : y ∈ head :: (l₁ ++ r :: l₂) :=
            List.mem_cons_of_mem _ (List.mem_append_right _ hy)
          rw [insertBetween_next, if_neg (cut_ne_last hnd hy), if_neg (hmem hyin)]
        · have hyin : y ∈ head :: (l₁ ++ r :: l₂) := by
            simp only [List.mem_append, List.mem_cons, List.not_mem_nil, or_false] at hy ⊢
            rcases hy with hy | hy
            · exact .inr (.inr (.inr hy))
            · exact .inl hy
          rw [insertBetween_prev, if_neg (hmem hyin), List.headD_cons, if_neg (cut_ne_rest hnd hy)]
  · have hperm : (head :: (l₁ ++ new :: l₂)).Perm (new :: head :: (l₁ ++ l₂)) :=
      (List.perm_middle.cons head).trans (List.Perm.swap new head _)
    exact hperm.nodup_iff.mpr (List.nodup_cons.mpr ⟨hnew, hnd⟩)
  · rw [not_or] at hy
    have hyq : y ≠ lastOf head l₁ := fun he => hy.2 (he ▸ hq)
    have hyr : y ≠ l₂.headD head := fun he => hy.2 (he ▸ hr)
    rw [insertBetween_next, if_neg hyq, if_neg hy.1, insertBetween_prev, if_neg hy.1, if_neg hyr]
    exact ⟨rfl, rfl⟩

/-- Unlinking a node. -/
theorem Ring.remove {x : α} (h : Ring m head (l₁ ++ x :: l₂)) :
    Ring (unlinkBetween m (lastOf head l₁) (l₂.headD head)) head (l₁ ++ l₂) ∧
      SameOutside m (unlinkBetween m (lastOf head l₁) (l₂.headD head))
        fun y => y ∈ head :: (l₁ ++ l₂) := by
  have hnd : (head :: (l₁ ++ l₂)).Nodup :=
    h.nodup.sublist ((List.Sublist.append_left (List.sublist_cons_self x l₂) l₁).cons_cons head)
  have hlink : Linked (unlinkBetween m (lastOf head l₁) (l₂.headD head)) (lastOf head l₁)
      (l₂.headD head) := by
    refine ⟨?_, ?_⟩
    · rw [unlinkBetween_next, if_pos rfl]
    · rw [unlinkBetween_prev, if_pos rfl]
  have hleft : Path (unlinkBetween m (lastOf head l₁) (l₂.headD head)) head l₁
      (l₂.headD head) := by
    refine (path_append.mp h.path).1.retarget (cut_left hnd) (fun y _ hne => ?_) (fun y hy => ?_)
      hlink
    · rw [unlinkBetween_next, if_neg hne]
    · rw [unlinkBetween_prev, if_neg (cut_ne_first hnd hy)]
  refine ⟨⟨?_, hnd⟩, fun y hy => ?_⟩
  · cases l₂ with
    | nil =>
      rw [List.append_nil]
      exact hleft
    | cons r l₂ =>
      refine path_append.mpr ⟨hleft, ?_⟩
      refine ((path_append.mp h.path).2.2).frame (fun y hy => ?_) (fun y hy => ?_)
      · rw [unlinkBetween_next, if_neg (cut_ne_last hnd hy)]
      · rw [unlinkBetween_prev, List.headD_cons, if_neg (cut_ne_rest hnd hy)]
  · have hyq : y ≠ lastOf head l₁ := by
      rintro rfl
      refine hy ?_
      rw [← List.cons_append]
      exact List.mem_append_left _ (lastOf_mem head l₁)
    have hyr : y ≠ l₂.headD head := by
      rintro rfl
      refine hy ?_
      cases l₂ <;> simp
    rw [unlinkBetween_next, if_neg hyq, unlinkBetween_prev, if_neg hyr]
    exact ⟨rfl, rfl⟩

/-- A scan with enough fuel finds the first node at which `p` holds. -/
theorem Path.scanFrom_eq {p : α → Bool} {a : α} (h : Path m a l head) (hnd : head ∉ l)
    {fuel : Nat} (hfuel : l.length < fuel) :
    (m.next a).bind (scanFrom m head p fuel) = some (l.find? p) := by
  induction l generalizing a fuel with
  | nil =>
    obtain ⟨fuel, rfl⟩ := Nat.exists_eq_succ_of_ne_zero (Nat.ne_zero_of_lt hfuel)
    rw [h.1, Option.bind_some, scanFrom, if_pos rfl]
    rfl
  | cons x l ih =>
    obtain ⟨fuel, rfl⟩ := Nat.exists_eq_succ_of_ne_zero (Nat.ne_zero_of_lt hfuel)
    rw [h.1.1, Option.bind_some, scanFrom, if_neg fun he : x = head => hnd (he ▸ List.mem_cons_self)]
    cases hp : p x with
    | true => rw [if_pos rfl, List.find?_cons_of_pos hp]
    | false =>
      rw [if_neg (by decide), List.find?_cons_of_neg (by rw [hp]; decide)]
      exact ih h.2 (fun hin => hnd (List.mem_cons_of_mem _ hin)) (Nat.lt_of_succ_lt_succ hfuel)

/-- A walk with enough fuel gives the list. -/
theorem Path.walkFrom_eq {a : α} (h : Path m a l head) (hnd : head ∉ l) {fuel : Nat}
    (hfuel : l.length < fuel) : (m.next a).bind (walkFrom m head fuel) = some l := by
  induction l generalizing a fuel with
  | nil =>
    obtain ⟨fuel, rfl⟩ := Nat.exists_eq_succ_of_ne_zero (Nat.ne_zero_of_lt hfuel)
    rw [h.1, Option.bind_some, walkFrom, if_pos rfl]
  | cons x l ih =>
    obtain ⟨fuel, rfl⟩ := Nat.exists_eq_succ_of_ne_zero (Nat.ne_zero_of_lt hfuel)
    have hrest := ih h.2 (fun hin => hnd (List.mem_cons_of_mem _ hin))
      (Nat.lt_of_succ_lt_succ hfuel)
    rw [h.1.1, Option.bind_some, walkFrom, if_neg fun he : x = head => hnd (he ▸ List.mem_cons_self)]
    cases hx : m.next x with
    | none =>
      rw [hx] at hrest
      cases hrest
    | some y =>
      rw [hx, Option.bind_some] at hrest
      rw [Option.bind_some, hrest]
      rfl

theorem Ring.walk_eq (h : Ring m head l) {fuel : Nat} (hfuel : l.length < fuel) :
    walk m head fuel = some l :=
  h.path.walkFrom_eq (List.nodup_cons.mp h.nodup).1 hfuel

theorem Ring.scan_eq (h : Ring m head l) (p : α → Bool) {fuel : Nat} (hfuel : l.length < fuel) :
    scan m head p fuel = some (l.find? p) :=
  h.path.scanFrom_eq (List.nodup_cons.mp h.nodup).1 hfuel

end

end LinkRing
