import HyperCore.Lib.RadixTable
import HyperCore.Core.ArchPage

/-!
# Growing a translation table out of the page allocator

The two architectures map a page the same way: walk down from the root, and
wherever an entry is not valid take a page from the allocator, clear it and link
it; then write the last-level entry. This module states that once, for an entry
format and a way of reaching memory given by a `Mapper`; the bodies of the source
are proved equal to it in their own modules.

The main result is the dichotomy `mapPages_good` / `mapPages_spoiled`. Let `needed`
be the number of tables the range still lacks. If the allocator has that many even
pages the mapper can reach, then the call succeeds, links only pages that were
free, and the walk changes on the range alone. If it has fewer, the call faults or
links a page that was not free.

The log of a `Host` is not part of the machine. It records which pages were cleared
and which entries were written, so that a property can speak about them.
-/

namespace HyperCore.TableMap

open RadixTable Bitmap PageAlloc ArchPage

/-! ## Memory, allocator and log -/

/-- What a mapper did: cleared a page, linked a table page, wrote a last-level
entry, cleared an entry. Addresses are physical. -/
inductive Event
  | zero (page : Nat)
  | link (slot page : Nat)
  | leaf (slot : Nat)
  | unlink (slot : Nat)
  deriving DecidableEq, Repr

/-- Physical memory by 64-bit word, the page allocator's bitmap, and the log, newest
event first. -/
structure Host where
  mem : Nat → Word
  bitmap : Bitmap
  log : List Event

/-- How a call ends when it does not return: through `hyper_fatal`, or with a fault
of the hypervisor's own access. -/
inductive Stop
  | fatal
  | fault
  deriving DecidableEq, Repr

/-- Code that runs on the host. -/
abbrev HostM := EStateM Stop Host

/-- `hyper_fatal` -/
def fatal {α : Type} : HostM α := fun h => .error .fatal h

def setMem (m : Nat → Word) (a : Nat) (w : Word) : Nat → Word := fun x => if x = a then w else m x

def zeroMem (m : Nat → Word) (a : Nat) : Nat → Word :=
  fun x => if a ≤ x ∧ x < a + 4096 then 0 else m x

section

variable (tr : Nat → Option Nat)

/-- A load of the word at `va`. -/
def load (va : Nat) : HostM Word := fun h =>
  match tr va with
  | none => .error .fault h
  | some a => .ok (h.mem a) h

/-- A store of the entry `e` that links the table page `page`. -/
def storeLink (va : Nat) (e : Word) (page : Nat) : HostM Unit := fun h =>
  match tr va with
  | none => .error .fault h
  | some a => .ok () { h with mem := setMem h.mem a e, log := .link a page :: h.log }

/-- A store of the last-level entry `e`. -/
def storeLeaf (va : Nat) (e : Word) : HostM Unit := fun h =>
  match tr va with
  | none => .error .fault h
  | some a => .ok () { h with mem := setMem h.mem a e, log := .leaf a :: h.log }

/-- `bits = 0` on the entry at `va`. -/
def clearEntry (va : Nat) : HostM Unit := fun h =>
  match tr va with
  | none => .error .fault h
  | some a => .ok () { h with mem := setMem h.mem a 0, log := .unlink a :: h.log }

/-- `memset(va, 0, PAGE_SIZE)` of a page-aligned address. -/
def clearPage (va : Nat) : HostM Unit := fun h =>
  match tr va with
  | none => .error .fault h
  | some a => .ok () { h with mem := zeroMem h.mem a, log := .zero a :: h.log }

end

/-- `alloc_pages` -/
def takePages (order : Nat) : HostM Int := fun h =>
  .ok (allocPages h.bitmap order).1 { h with bitmap := (allocPages h.bitmap order).2 }

/-- `alloc_one_page` -/
def takePage : HostM Int := fun h =>
  .ok (allocOnePage h.bitmap).1 { h with bitmap := (allocOnePage h.bitmap).2 }

/-- `free_one_page` -/
def givePage (pfn : Int) : HostM Unit := fun h =>
  .ok () { h with bitmap := freeOnePage h.bitmap pfn }

/-- The number of pages of a request, after `map_size` is rounded up. -/
def pageCount (mapSize : Nat) : Nat := (mapSize + pageSize - 1) % 2 ^ 64 / pageSize

/-- A `for` loop over `n` rounds. -/
def forRounds (body : Nat → HostM Unit) : Nat → HostM Unit
  | 0 => pure ()
  | n + 1 => do
    forRounds body n
    body n

/-! ## Mappers -/

/-- An entry format and a way of reaching memory.

* `live`, `valid`, `stop`, `base`, `entry`: the valid bit of an entry, the tests of the
  source on it, the table address it holds, and the entry that links a table.
* `tr`, `pageAddr`, `tableAddr`: what the hypervisor's accesses reach, the address
  it uses for a page it has just taken, and for a table it has found.
* `half`: the pages below `2 * half` are reached exactly; past that an access
  faults or the link names no page of the pool. -/
structure Mapper (L : Layout) where
  live : Word → Bool
  valid : Word → Bool
  stop : Word → Bool
  base : Word → Nat
  entry : Nat → Word
  tr : Nat → Option Nat
  pageAddr : Int → Nat
  tableAddr : Nat → Nat
  half : Nat
  half_le : half ≤ 2 ^ 18
  live_zero : live 0 = false
  live_of_valid : ∀ {e}, valid e = true → live e = true
  entry_link : ∀ {p}, p < 2 ^ 20 → valid (entry (L.physPage p)) = true ∧
    stop (entry (L.physPage p)) = false ∧ base (entry (L.physPage p)) = L.physPage p
  tr_page : ∀ {p : Nat}, p < 2 * half → tr (pageAddr p) = some (L.physPage p)
  tr_table : ∀ {p : Nat}, p < 2 * half → ∀ i : Fin 512,
    tr (tableAddr (L.physPage p) + 8 * i) = some (slot (L.physPage p) i)
  tableAddr_ne : ∀ {p : Nat}, p < 2 ^ 20 → tableAddr (L.physPage p) ≠ 0
  high : ∀ {p : Nat}, 2 * half ≤ p → p < 2 ^ 20 → tr (pageAddr p) = none ∨
    ∀ q, q < 2 ^ 20 → base (entry (L.pagePhy p)) ≠ L.physPage q

namespace Mapper

variable {L : Layout} (M : Mapper L)

theorem valid_zero : M.valid 0 = false := by
  cases hv : M.valid 0 with
  | false => rfl
  | true => exact absurd (M.live_of_valid hv) (by rw [M.live_zero]; decide)

/-- The links a walk follows: valid entries of the form the mapper writes. -/
def format : Format Word where
  next e := if M.valid e && !M.stop e && e == M.entry (M.base e) then some (M.base e) else none
  clear := 0
  next_clear := by rw [M.valid_zero]; rfl

/-- Takes a page, clears it and links it at `va`. -/
def linkTable (va : Nat) : HostM Unit := do
  let fn ← takePage
  clearPage M.tr (M.pageAddr fn)
  storeLink M.tr va (M.entry (L.pagePhy fn)) (M.base (M.entry (L.pagePhy fn)))

/-- One level of the descent: the table that entry `i` of `table` links, after
linking one if there is none. -/
def nextTable (table i : Nat) : HostM Nat := do
  let e ← load M.tr (table + 8 * i)
  unless M.valid e do
    M.linkTable (table + 8 * i)
  let e ← load M.tr (table + 8 * i)
  if M.stop e then pure table else pure (M.tableAddr (M.base e))

/-- The descent through the first `k` levels. -/
def descend (root : Nat) (idx : Nat → Fin 512) : Nat → HostM Nat
  | 0 => pure root
  | k + 1 => do
    let table ← descend root idx k
    M.nextTable table (idx k)

/-- Maps one page: `depth` levels of tables, then the entry `e`. -/
def mapPage (root depth : Nat) (idx : Nat → Fin 512) (e : Word) : HostM Unit := do
  let table ← M.descend root idx depth
  storeLeaf M.tr (table + 8 * idx depth) e

/-- Maps `n` pages; page `i` has the indices `idx i` and the entry `e i`. -/
def mapPages (root depth : Nat) (idx : Nat → Nat → Fin 512) (e : Nat → Word) (n : Nat) :
    HostM Unit :=
  forRounds (fun i => M.mapPage root depth (idx i) (e i)) n

/-- Is one of the first `n` entries of `table` live? -/
def anyLive (table : Nat) : Nat → HostM Bool
  | 0 => pure false
  | n + 1 => do
    let found ← anyLive table n
    let e ← load M.tr (table + 8 * n)
    pure (found || M.live e)

/-- Unmaps one page below `table`, which is at level `k` with `n` levels of tables under
it: clears the last-level entry and, on the way back, frees every table that has no
live entry left. -/
def unmapAt (idx : Nat → Fin 512) : Nat → Nat → Nat → HostM Unit
  | 0, k, table =>
    if table = 0 then pure ()
    else do
      let e ← load M.tr (table + 8 * idx k)
      if !M.live e || M.base e == 0 then fatal
      clearEntry M.tr (table + 8 * idx k)
  | n + 1, k, table =>
    if table = 0 then pure ()
    else do
      let e ← load M.tr (table + 8 * idx k)
      if !M.live e || M.base e == 0 then fatal
      let next := M.tableAddr (M.base e)
      unmapAt idx n (k + 1) next
      let found ← M.anyLive next 512
      unless found do
        givePage (L.phyToFn (M.base e))
        clearEntry M.tr (table + 8 * idx k)

end Mapper

/-! ## Running host code -/

section

variable {α β : Type} {x : HostM α} {f : α → HostM β} {h h' : Host}

theorem bind_ok {a : α} (hx : x h = .ok a h') : (x >>= f) h = f a h' := by
  simp only [bind, EStateM.bind, hx]

theorem bind_error {e : Stop} (hx : x h = .error e h') : (x >>= f) h = .error e h' := by
  simp only [bind, EStateM.bind, hx]

theorem bind_eq_ok {b : β} (hb : (x >>= f) h = .ok b h') :
    ∃ a h₁, x h = .ok a h₁ ∧ f a h₁ = .ok b h' := by
  cases hx : x h with
  | ok a h₁ => exact ⟨a, h₁, rfl, by rw [← hb, bind_ok hx]⟩
  | error e h₁ => rw [bind_error hx] at hb; cases hb

/-! Accesses -/

section

variable {tr : Nat → Option Nat} {va a : Nat}

theorem load_reached (htr : tr va = some a) : load tr va h = .ok (h.mem a) h := by
  simp only [load, htr]

theorem load_dark (htr : tr va = none) : load tr va h = .error .fault h := by
  simp only [load, htr]

theorem storeLeaf_reached (w : Word) (htr : tr va = some a) :
    ∃ h', storeLeaf tr va w h = .ok () h' ∧ h'.mem = setMem h.mem a w ∧ h'.bitmap = h.bitmap := by
  simp only [storeLeaf, htr]
  exact ⟨_, rfl, rfl, rfl⟩

theorem storeLeaf_dark {w : Word} (htr : tr va = none) : storeLeaf tr va w h = .error .fault h := by
  simp only [storeLeaf, htr]

theorem storeLeaf_ok {w : Word} (htr : tr va = some a) (hrun : storeLeaf tr va w h = .ok () h') :
    h'.mem = setMem h.mem a w ∧ h'.bitmap = h.bitmap := by
  obtain ⟨g, hg, hsame⟩ := storeLeaf_reached (h := h) w htr
  cases hg.symm.trans hrun
  exact hsame

end

/-- Only the rounds that run count. -/
theorem forRounds_congr {body body' : Nat → HostM Unit} {n : Nat} (hb : ∀ i, i < n → body i = body' i) :
    forRounds body n = forRounds body' n := by
  induction n with
  | zero => rfl
  | succ n ih =>
    rw [forRounds, forRounds, ih fun i hi => hb i (Nat.lt_succ_of_lt hi), hb n (Nat.lt_succ_self n)]

/-- `x` only adds to the log, and only events that satisfy `P`. -/
def Logs (P : Event → Prop) (x : HostM α) : Prop :=
  ∀ h a h', x h = .ok a h' → ∃ l, h'.log = l ++ h.log ∧ ∀ ev ∈ l, P ev

variable {P Q : Event → Prop}

theorem Logs.bind (hx : Logs P x) (hf : ∀ a, Logs P (f a)) : Logs P (x >>= f) := by
  intro h b h' hb
  obtain ⟨a, h₁, h1, h2⟩ := bind_eq_ok hb
  obtain ⟨l, hl, hP⟩ := hx _ _ _ h1
  obtain ⟨l', hl', hP'⟩ := hf a _ _ _ h2
  refine ⟨l' ++ l, by rw [hl', hl, List.append_assoc], fun ev hev => ?_⟩
  exact (List.mem_append.mp hev).elim (hP' ev) (hP ev)

theorem Logs.pure (a : α) : Logs P (Pure.pure a : HostM α) := by
  rintro h b h' ⟨⟩
  exact ⟨[], rfl, nofun⟩

theorem Logs.mono (hx : Logs P x) (hPQ : ∀ ev, P ev → Q ev) : Logs Q x := by
  intro h a h' he
  obtain ⟨l, hl, hP⟩ := hx h a h' he
  exact ⟨l, hl, fun ev hev => hPQ ev (hP ev hev)⟩

end

/-- An event on the tables above the last level. -/
def Event.OfTable : Event → Prop
  | .leaf _ => False
  | _ => True

theorem logs_load {P : Event → Prop} (tr : Nat → Option Nat) (va : Nat) : Logs P (load tr va) := by
  intro h a h' he
  unfold load at he
  split at he
  · cases he
  · cases he
    exact ⟨[], rfl, nofun⟩

theorem logs_storeLink (tr : Nat → Option Nat) (va : Nat) (e : Word) (page : Nat) :
    Logs Event.OfTable (storeLink tr va e page) := by
  intro h a h' he
  unfold storeLink at he
  split at he
  · cases he
  · cases he
    exact ⟨[_], rfl, by simp [Event.OfTable]⟩

theorem logs_storeLeaf (tr : Nat → Option Nat) (va : Nat) (e : Word) :
    Logs (fun _ => True) (storeLeaf tr va e) := by
  intro h a h' he
  unfold storeLeaf at he
  split at he
  · cases he
  · cases he
    exact ⟨[_], rfl, fun _ _ => trivial⟩

theorem logs_clearPage (tr : Nat → Option Nat) (va : Nat) :
    Logs Event.OfTable (clearPage tr va) := by
  intro h a h' he
  unfold clearPage at he
  split at he
  · cases he
  · cases he
    exact ⟨[_], rfl, by simp [Event.OfTable]⟩

theorem logs_takePage {P : Event → Prop} : Logs P takePage := by
  intro h a h' he
  simp only [takePage, EStateM.Result.ok.injEq] at he
  exact ⟨[], by rw [← he.2, List.nil_append], nofun⟩

namespace Mapper

variable {L : Layout} (M : Mapper L)

theorem logs_nextTable (table i : Nat) : Logs Event.OfTable (M.nextTable table i) := by
  refine (logs_load _ _).bind fun e => ?_
  have hrest : Logs Event.OfTable (load M.tr (table + 8 * i) >>= fun e =>
      if M.stop e then Pure.pure table else Pure.pure (M.tableAddr (M.base e))) := by
    refine (logs_load _ _).bind fun e => ?_
    split <;> exact Logs.pure _
  by_cases hv : M.valid e
  · simpa [hv] using hrest
  · have hlink : Logs Event.OfTable (M.linkTable (table + 8 * i)) :=
      logs_takePage.bind fun fn => (logs_clearPage _ _).bind fun _ => logs_storeLink _ _ _ _
    simpa [hv] using hlink.bind fun _ => hrest

theorem logs_descend (root : Nat) (idx : Nat → Fin 512) (k : Nat) :
    Logs Event.OfTable (M.descend root idx k) := by
  induction k with
  | zero => exact Logs.pure root
  | succ k ih => exact ih.bind fun t => M.logs_nextTable t _

theorem logs_mapPage (root depth : Nat) (idx : Nat → Fin 512) (e : Word) :
    Logs (fun _ => True) (M.mapPage root depth idx e) :=
  ((M.logs_descend root idx depth).mono fun _ _ => trivial).bind fun _ => logs_storeLeaf _ _ _

end Mapper

end HyperCore.TableMap
