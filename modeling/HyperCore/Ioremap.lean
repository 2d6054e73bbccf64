import HyperCore.AArch64.HostPages
import HyperCore.Core.KmapArea
import HyperCore.MapUnmap

/-!
# `ioremap.c`: device memory in the `kmap` area

`ioremap` takes addresses from the area's bitmap and maps the pages of the request there, `iounmap` only
unmaps them: `__vfree` has no caller, so the addresses stay given away. The page offset of the physical
address is dropped, and an area that is used up is not noticed.

`KmapRun` are the runs from `init_kmap` on. Within the conditions of `Answerable`, every range handed out
is in the area, apart from the live ones, and translates byte by byte; the addresses come back exactly
when no page was ever unmapped (`ioremap_contract_iff`).
-/

namespace HyperCore.Ioremap

open RadixTable Scan MachineInt Bitmap PageAlloc ArchPage TableMap KmapArea AArch64

/-- What the calls work on: `g_vmalloc_bitmap`, and the tables with their allocator. -/
structure Kmap where
  map : BitmapT
  host : Host

/-- Code that works on both. -/
abbrev KmapM := EStateM Stop Kmap

/-- `hyper_fatal` -/
def kmapFatal {α : Type} : KmapM α := fun k => .error .fatal k

/-- `__vmalloc` -/
def vmalloc (size : Nat) : KmapM Nat := fun k =>
  .ok (bitmapAllocRange k.map size).1 { k with map := (bitmapAllocRange k.map size).2 }

/-- Code that leaves the bitmap alone. -/
def onHost (x : HostM Unit) : KmapM Unit := fun k =>
  match x k.host with
  | .ok () host => .ok () { k with host := host }
  | .error e host => .error e { k with host := host }

/-- The number of pages of an `int`: `round_up(size, PAGE_SIZE) >> PAGE_SHIFT`. -/
def pageNumOf (size : Int) : Int := toInt32 ((size + 4095) / 4096 * 4096) / 4096

/-- `host_map_pages` -/
def hostMapPages (L : Layout) (root vir phy : Nat) (pageNum : Int) (attr : Nat) : HostM Unit :=
  forRounds (fun i => hostMapOnePage L root ((vir + pageSize * i) % 2 ^ 64)
    ((phy + pageSize * i) % 2 ^ 64) attr) pageNum.toNat

/-- `host_unmap_pages` -/
def hostUnmapPages (L : Layout) (root vir : Nat) (size : Int) : HostM Unit :=
  forRounds (fun i => hostUnmapOnePage L root ((vir + pageSize * i) % 2 ^ 64)) (pageNumOf size).toNat

/-- `ioremap` -/
def ioremap (L : Layout) (root phy : Nat) (size : Int) (attr : Nat) : KmapM Nat := do
  let vaddr ← vmalloc (toUInt64 size)
  if vaddr = 0 then kmapFatal
  else do
    onHost (hostMapPages L root vaddr phy (pageNumOf size) attr)
    pure vaddr

/-- `ioremap_page` -/
def ioremapPage (L : Layout) (root phy attr : Nat) : KmapM Nat := do
  let vaddr ← vmalloc pageSize
  if vaddr = 0 then kmapFatal
  else do
    onHost (hostMapOnePage L root vaddr phy attr)
    pure vaddr

/-- `iounmap` -/
def iounmap (L : Layout) (root vir : Nat) (size : Int) : KmapM Unit :=
  onHost (hostUnmapPages L root vir size)

/-- `iounmap_page` -/
def iounmapPage (L : Layout) (root vir : Nat) : KmapM Unit := onHost (hostUnmapOnePage L root vir)

/-! ## Runs -/

/-- A result of `ioremap`, with the request it answers. -/
structure Remapped where
  vaddr : Nat
  phy : Nat
  size : Nat
  deriving DecidableEq, Repr

/-- Page `i` of the area is one of the range's pages. -/
def Remapped.Has (r : Remapped) (i : Nat) : Prop :=
  r.vaddr ≤ kmapPage i ∧ kmapPage i < r.vaddr + r.size

/-- The requests that the code can answer: whole pages from a page on, in the physical address space, with
free pages in a row in the bitmap, from `n` on, and a pool that has the tables they lack. -/
structure Answerable (L : Layout) (root : Nat) (k : Kmap) (phy size n : Nat) : Prop where
  aligned : phy % pageSize = 0
  physical : phy + size ≤ 2 ^ 48
  int : size < 2 ^ 31
  room : HasRoom k.map size n
  pool : pagesNeeded L root k.host (fun i => kmapPage (n + i)) (pageCount size) ≤
    evenFree k.host.bitmap (totalPages / 2)

/-- The runs from `init_kmap` on, on memory in which `kmalloc` returns `heap`: the ranges that are live, and
those that were unmapped. Requests are answerable, and the rest of the hypervisor runs in between. -/
inductive KmapRun (L : Layout) (root : Nat) (heap : Bitmap) : List Remapped → List Remapped → Kmap → Prop
  | init {h : Host} : HostBuilt L root h →
      (∀ n, n < kmapPageNum → hostAddress h.mem root (kmapPage n) = none) →
      KmapRun L root heap [] [] ⟨initKmap heap, h⟩
  | remap {live gone : List Remapped} {k k' : Kmap} {phy size n attr p : Nat} :
      KmapRun L root heap live gone k → Answerable L root k phy size n →
      ioremap L root phy size attr k = .ok p k' → KmapRun L root heap (⟨p, phy, size⟩ :: live) gone k'
  | remapPage {live gone : List Remapped} {k k' : Kmap} {phy n attr p : Nat} :
      KmapRun L root heap live gone k → Answerable L root k phy pageSize n →
      ioremapPage L root phy attr k = .ok p k' →
      KmapRun L root heap (⟨p, phy, pageSize⟩ :: live) gone k'
  | unmap {live gone : List Remapped} {k k' : Kmap} {r : Remapped} :
      KmapRun L root heap live gone k → r ∈ live → iounmap L root r.vaddr r.size k = .ok () k' →
      KmapRun L root heap (live.erase r) (r :: gone) k'
  | unmapPage {live gone : List Remapped} {k k' : Kmap} {r : Remapped} :
      KmapRun L root heap live gone k → r ∈ live → r.size = pageSize →
      iounmapPage L root r.vaddr k = .ok () k' → KmapRun L root heap (live.erase r) (r :: gone) k'
  | other {live gone : List Remapped} {k : Kmap} {h' : Host} : KmapRun L root heap live gone k →
      HostIdle L root k.host h' → KmapRun L root heap live gone ⟨k.map, h'⟩

/-- What is promised of the live ranges. -/
structure Remaps (root : Nat) (live : List Remapped) (k : Kmap) : Prop where
  inside : ∀ r, r ∈ live → kmapVirtStart ≤ r.vaddr ∧ r.vaddr + r.size ≤ kmapVirtEnd
  apart : live.Pairwise fun r s => ∀ a, r.vaddr ≤ a → a < r.vaddr + r.size →
    ¬ (s.vaddr ≤ a ∧ a < s.vaddr + s.size)
  translates : ∀ r, r ∈ live → ∀ i, i < r.size →
    hostAddress k.host.mem root (r.vaddr + i) = some (r.phy + i)

/-- Every page that is given away belongs to a live range, or was never the area's to give. -/
def Returned (heap : Bitmap) (live : List Remapped) (k : Kmap) : Prop :=
  ∀ i, i < kmapPageNum → bit k.map.data i = true →
    bit (initKmap heap).data i = true ∨ ∃ r, r ∈ live ∧ r.Has i

/-! ## Pages and addresses -/

/-- Two addresses have the same indices exactly in one page. -/
theorem hostIndex_agree_iff {a b : Nat} (ha : a < 2 ^ 48) (hb : b < 2 ^ 48) :
    AgreeTo 4 (hostIndex a) (hostIndex b) ↔ a / 4096 = b / 4096 := by
  have hidx (x : Nat) : hostIndex x = fun k => pageIndex x (0 + k) :=
    funext fun k => by rw [Nat.zero_add]; rfl
  rw [hidx a, hidx b]
  exact ⟨fun hag => RadixTable.page_eq_of_agree (Nat.zero_le 3) ha hb hag, fun hpage => agree_of_page hpage 4⟩

theorem kmapPage_lt {n : Nat} (hn : n ≤ kmapPageNum) : kmapPage n < 2 ^ 40 := by
  rw [kmapPageNum] at hn
  rw [kmapPage, kmapVirtStart, pageSize]
  omega

theorem agree_kmapPage {va n : Nat} (hva : va < 2 ^ 48) (hn : n < kmapPageNum) :
    AgreeTo 4 (hostIndex va) (hostIndex (kmapPage n)) ↔ kmapPage n ≤ va ∧ va < kmapPage (n + 1) := by
  have hlt := kmapPage_lt (Nat.le_of_lt hn)
  rw [hostIndex_agree_iff hva (by omega), kmapPage, kmapPage, kmapVirtStart, pageSize]
  omega

/-- Distinct pages have distinct indices. -/
theorem kmapPage_distinct {m n : Nat} (hm : m < kmapPageNum) (hn : n < kmapPageNum) (hne : m ≠ n) :
    ¬ AgreeTo 4 (hostIndex (kmapPage m)) (hostIndex (kmapPage n)) := by
  have hlt := kmapPage_lt (Nat.le_of_lt hm)
  rw [agree_kmapPage (by omega) hn, kmapPage, kmapPage, kmapPage, pageSize]
  omega

/-! ## The two loops, on pages of the area -/

section

variable {L : Layout} {root phy attr p cnt : Nat} {h h' : Host}

/-- `host_map_pages` on the area's pages from `p` on. -/
def mapArea (L : Layout) (root p phy attr cnt : Nat) : HostM Unit :=
  forRounds (fun i => hostMapOnePage L root (kmapPage (p + i)) (phy + pageSize * i) attr) cnt

/-- `host_unmap_pages` on the area's pages from `p` on. -/
def unmapArea (L : Layout) (root p cnt : Nat) : HostM Unit :=
  forRounds (fun i => hostUnmapOnePage L root (kmapPage (p + i))) cnt

theorem kmapPage_add {i : Nat} (hi : p + i ≤ kmapPageNum) :
    (kmapPage p + pageSize * i) % 2 ^ 64 = kmapPage (p + i) := by
  have hlt := kmapPage_lt hi
  have heq : kmapPage p + pageSize * i = kmapPage (p + i) := by
    rw [kmapPage, kmapPage]
    ring
  rw [heq, Nat.mod_eq_of_lt (by omega)]

theorem hostMapPages_area (L : Layout) (root attr : Nat) (hin : p + cnt ≤ kmapPageNum) (hphy : phy + pageSize * cnt ≤ 2 ^ 64) :
    hostMapPages L root (kmapPage p) phy cnt attr = mapArea L root p phy attr cnt := by
  refine forRounds_congr fun i hi => ?_
  have hlt : i < cnt := hi
  rw [pageSize] at hphy
  rw [kmapPage_add (by omega), Nat.mod_eq_of_lt (show phy + pageSize * i < 2 ^ 64 by rw [pageSize]; omega)]

/-- A loop of mappings that returns gives the pages their addresses and leaves the others alone. -/
theorem mapArea_ok (hr : BootPgtable L root) (hb : HostBuilt L root h) (hin : p + cnt ≤ kmapPageNum)
    (hnone : ∀ i, p ≤ i → i < p + cnt → hostAddress h.mem root (kmapPage i) = none)
    (hpool : pagesNeeded L root h (fun i => kmapPage (p + i)) cnt ≤ evenFree h.bitmap (totalPages / 2))
    (hal : phy % pageSize = 0) (hphys : phy + pageSize * cnt ≤ 2 ^ 48)
    (hrun : mapArea L root p phy attr cnt h = .ok () h') :
    HostBuilt L root h' ∧
      (∀ a, kmapPage p ≤ a → a < kmapPage (p + cnt) →
        hostAddress h'.mem root a = some (phy + (a - kmapPage p))) ∧
      ∀ a, a < 2 ^ 48 → ¬ (kmapPage p ≤ a ∧ a < kmapPage (p + cnt)) →
        hostAddress h'.mem root a = hostAddress h.mem root a := by
  have hfree (i : Nat) (hi : i < cnt) : hostAddress h.mem root (kmapPage (p + i)) = none :=
    hnone (p + i) (Nat.le_add_right p i) (by omega)
  have hdist (i j : Nat) (hij : i < j) (hj : j < cnt) :
      ¬ AgreeTo 4 (hostIndex (kmapPage (p + i))) (hostIndex (kmapPage (p + j))) :=
    kmapPage_distinct (by omega) (by omega) (by omega)
  have hroom := hb.map_pages_room hr hfree hdist hpool hrun
  obtain ⟨g, hrun', hb', -, hat, hoff⟩ := hb.map_pages hr hfree hdist hroom (fun i => phy + pageSize * i) attr
  cases hrun'.symm.trans hrun
  rw [pageSize] at hal hphys
  refine ⟨hb', fun a hge hlt => ?_, fun a ha hout => hoff a fun i hi hag => hout ?_⟩
  · have ha : a < 2 ^ 48 := by
      have hend := kmapPage_lt hin
      omega
    rw [kmapPage, kmapVirtStart, pageSize] at hge hlt
    -- `a` is in page `i` of the request
    obtain ⟨i, hi⟩ : ∃ i, (a - kmapPage p) / 4096 = i := ⟨_, rfl⟩
    rw [kmapPage, kmapVirtStart, pageSize] at hi
    have hag : AgreeTo 4 (hostIndex a) (hostIndex (kmapPage (p + i))) := by
      rw [agree_kmapPage ha (by omega), kmapPage, kmapPage, kmapVirtStart, pageSize]
      omega
    rw [hat i (by omega) a hag, hostAddr_make1 0 (by rw [pageSize]; omega) (by rw [pageSize]; omega),
      kmapPage, kmapVirtStart, pageSize]
    congr 1
    omega
  · rw [agree_kmapPage ha (by omega), kmapPage, kmapPage, pageSize] at hag
    rw [kmapPage, kmapPage, pageSize]
    omega

/-- A loop of unmappings that returns gives no page an address, and leaves the others alone. -/
theorem unmapArea_ok (hr : BootPgtable L root) (hb : HostBuilt L root h) (hin : p + cnt ≤ kmapPageNum)
    (hrun : unmapArea L root p cnt h = .ok () h') :
    HostBuilt L root h' ∧
      (∀ a, hostAddress h.mem root a = none → hostAddress h'.mem root a = none) ∧
      ∀ a, a < 2 ^ 48 → ¬ (kmapPage p ≤ a ∧ a < kmapPage (p + cnt)) →
        hostAddress h'.mem root a = hostAddress h.mem root a := by
  obtain ⟨hb', hold, hoff⟩ := hb.unmapped_pages hr hrun
  refine ⟨hb', hold, fun a ha hout => hoff a fun i hi hag => hout ?_⟩
  rw [agree_kmapPage ha (by omega), kmapPage, kmapPage, pageSize] at hag
  rw [kmapPage, kmapPage, pageSize]
  omega

end

/-! ## One call -/

section

variable {L : Layout} {root phy attr vir size n : Nat} {k k' : Kmap}

theorem kmap_bind_ok {α β : Type} {x : KmapM α} {f : α → KmapM β} {a : α} (hx : x k = .ok a k') :
    (x >>= f) k = f a k' := by
  simp only [bind, EStateM.bind, hx]

theorem onHost_of {x : HostM Unit} {h' : Host} (hx : x k.host = .ok () h') : onHost x k = .ok () ⟨k.map, h'⟩ := by
  rw [onHost, hx]

theorem onHost_ok {x : HostM Unit} (hrun : onHost x k = .ok () k') :
    ∃ h', x k.host = .ok () h' ∧ k' = ⟨k.map, h'⟩ := by
  rw [onHost] at hrun
  cases hx : x k.host with
  | ok u h' =>
    rw [hx] at hrun
    cases hrun
    exact ⟨h', rfl, rfl⟩
  | error e h' =>
    rw [hx] at hrun
    cases hrun

theorem forRounds_one (body : Nat → HostM Unit) : forRounds body 1 = body 0 := by
  funext h
  rw [forRounds, forRounds]
  exact bind_ok rfl

/-- `ioremap_page` is `ioremap` of one page. -/
theorem ioremapPage_eq (hphy : phy < 2 ^ 64) :
    ioremapPage L root phy attr k = ioremap L root phy pageSize attr k := by
  have hone (vaddr : Nat) (hv : vaddr < 2 ^ 64) :
      hostMapPages L root vaddr phy (pageNumOf pageSize) attr = hostMapOnePage L root vaddr phy attr := by
    have hnum : (pageNumOf pageSize).toNat = 1 := by decide
    rw [hostMapPages, hnum, forRounds_one, Nat.mul_zero, Nat.add_zero, Nat.add_zero, Nat.mod_eq_of_lt hv,
      Nat.mod_eq_of_lt hphy]
  have hva : (bitmapAllocRange k.map pageSize).1 < 2 ^ 64 := by
    rw [bitmapAllocRange]
    simp only [toUInt64]
    omega
  have hsize : toUInt64 (pageSize : Int) = pageSize := by decide
  have hvm : vmalloc pageSize k = .ok (bitmapAllocRange k.map pageSize).1
      ⟨(bitmapAllocRange k.map pageSize).2, k.host⟩ := rfl
  rw [ioremapPage, ioremap, hsize, kmap_bind_ok hvm, kmap_bind_ok hvm, hone _ hva]

/-- `iounmap_page` is `iounmap` of one page. -/
theorem iounmapPage_eq (hvir : vir < 2 ^ 64) : iounmapPage L root vir k = iounmap L root vir pageSize k := by
  have hnum : (pageNumOf pageSize).toNat = 1 := by decide
  rw [iounmapPage, iounmap, hostUnmapPages, hnum, forRounds_one, Nat.mul_zero, Nat.add_zero,
    Nat.mod_eq_of_lt hvir]

theorem pageNumOf_small (hsize : size ≤ 2 ^ 30) : pageNumOf size = pageCount size := by
  rw [pageNumOf, pageCount_small (by omega), toInt32_eq (by omega) (by omega)]
  omega

/-- An answerable request takes free pages and maps them. -/
theorem ioremap_eq (hmap : OfKmap k.map) (ha : Answerable L root k phy size n) (attr : Nat) :
    ∃ p bt', Granted k.map bt' (pageCount size) p ∧ (0 < size → p = n) ∧
      ioremap L root phy size attr k = (do
        onHost (mapArea L root p phy attr (pageCount size))
        pure (kmapPage p) : KmapM Nat) ⟨bt', k.host⟩ := by
  obtain ⟨p, bt', hrun, hg, hfirst⟩ := bitmapAllocRange_first hmap ha.int ha.room
  refine ⟨p, bt', hg, hfirst, ?_⟩
  have hin := hg.inside
  have hcnt := pageCount_small ha.int
  have hphys := ha.physical
  rw [kmapPageNum] at hin
  have hsize : toUInt64 (size : Int) = size := toUInt64_natCast (by have := ha.int; omega)
  have hne : kmapPage p ≠ 0 := by
    rw [kmapPage, kmapVirtStart]
    omega
  have hloop := hostMapPages_area L root attr hg.inside
    (show phy + pageSize * pageCount size ≤ 2 ^ 64 by rw [pageSize]; omega)
  have hvm : vmalloc size k = .ok (kmapPage p) ⟨bt', k.host⟩ := by
    rw [vmalloc, hrun]
  rw [ioremap, hsize, pageNumOf_small (by omega), kmap_bind_ok hvm, if_neg hne, hloop]

/-- The request takes the pages whose tables the pool has. -/
theorem pagesNeeded_first {h : Host} {p : Nat} (hsize : size < 2 ^ 31) (hfirst : 0 < size → p = n) :
    pagesNeeded L root h (fun i => kmapPage (p + i)) (pageCount size) =
      pagesNeeded L root h (fun i => kmapPage (n + i)) (pageCount size) := by
  rcases Nat.eq_zero_or_pos size with hz | hpos
  · have hcnt := pageCount_small hsize
    rw [show pageCount size = 0 by omega]
    rfl
  · rw [hfirst hpos]

/-- An answerable request that returns has mapped the pages it took. -/
theorem ioremap_ok {va : Nat} (hmap : OfKmap k.map) (ha : Answerable L root k phy size n)
    (hrun : ioremap L root phy size attr k = .ok va k') :
    ∃ p bt' h', Granted k.map bt' (pageCount size) p ∧
      pagesNeeded L root k.host (fun i => kmapPage (p + i)) (pageCount size) ≤
        evenFree k.host.bitmap (totalPages / 2) ∧
      mapArea L root p phy attr (pageCount size) k.host = .ok () h' ∧ va = kmapPage p ∧ k' = ⟨bt', h'⟩ := by
  obtain ⟨p, bt', hg, hfirst, heq⟩ := ioremap_eq hmap ha attr
  rw [heq] at hrun
  have hpool := ha.pool
  rw [← pagesNeeded_first ha.int hfirst] at hpool
  cases hon : onHost (mapArea L root p phy attr (pageCount size)) ⟨bt', k.host⟩ with
  | ok u k₁ =>
    rw [kmap_bind_ok hon] at hrun
    cases hrun
    obtain ⟨h', hloop, hk⟩ := onHost_ok hon
    exact ⟨p, bt', h', hg, hpool, hloop, rfl, hk⟩
  | error e k₁ =>
    simp only [bind, EStateM.bind, hon] at hrun
    cases hrun

/-- An unmapping that returns has unmapped the pages of the range. -/
theorem iounmap_ok {p : Nat} (hin : p + pageCount size ≤ kmapPageNum) (hsize : size < 2 ^ 31)
    (hrun : iounmap L root (kmapPage p) size k = .ok () k') :
    ∃ h', unmapArea L root p (pageCount size) k.host = .ok () h' ∧ k' = ⟨k.map, h'⟩ := by
  obtain ⟨h', hloop, hk⟩ := onHost_ok hrun
  refine ⟨h', ?_, hk⟩
  have hcnt := pageCount_small hsize
  have hnum : kmapPageNum = 65536 := rfl
  have harea : hostUnmapPages L root (kmapPage p) size = unmapArea L root p (pageCount size) := by
    rw [hostUnmapPages, pageNumOf_small (by omega)]
    refine forRounds_congr fun i hi => ?_
    have hlt : i < pageCount size := hi
    rw [kmapPage_add (by omega)]
  rw [← harea]
  exact hloop

end

/-! ## The invariant -/

/-- The range begins with page `p` and stays in the area. -/
structure Remapped.At (r : Remapped) (p : Nat) : Prop where
  vaddr : r.vaddr = kmapPage p
  inside : p + pageCount r.size ≤ kmapPageNum
  int : r.size < 2 ^ 31

section

variable {r s : Remapped} {p i : Nat}

theorem Remapped.At.has_iff (hat : r.At p) : r.Has i ↔ p ≤ i ∧ i < p + pageCount r.size := by
  have hcnt := pageCount_small hat.int
  rw [Remapped.Has, hat.vaddr, hcnt, kmapPage, kmapPage, pageSize]
  omega

/-- Every byte of a range is in one of its pages. -/
theorem Remapped.At.page_of (hat : r.At p) (hi : i < r.size) :
    ∃ j, r.Has j ∧ kmapPage j ≤ r.vaddr + i ∧ r.vaddr + i < kmapPage (j + 1) := by
  have hcnt := pageCount_small hat.int
  refine ⟨p + i / 4096, hat.has_iff.mpr ⟨Nat.le_add_right _ _, by omega⟩, ?_⟩
  rw [hat.vaddr, kmapPage, kmapPage, kmapPage, pageSize]
  omega

theorem kmapPage_between {a j m n : Nat} (hlo : kmapPage j ≤ a) (hhi : a < kmapPage (j + 1))
    (hm : kmapPage m ≤ a) (hn : a < kmapPage n) : m ≤ j ∧ j < n := by
  rw [kmapPage, pageSize] at hlo hhi hm hn
  omega

/-- Ranges without a common page have no common byte. -/
theorem Remapped.At.apart {q : Nat} (hr : r.At p) (hs : s.At q) (hno : ∀ i, r.Has i → ¬ s.Has i) {a : Nat}
    (hlo : r.vaddr ≤ a) (hhi : a < r.vaddr + r.size) : ¬ (s.vaddr ≤ a ∧ a < s.vaddr + s.size) := by
  rintro ⟨hlo', hhi'⟩
  obtain ⟨j, hj, h1, h2⟩ := hr.page_of (show a - r.vaddr < r.size by omega)
  obtain ⟨j', hj', h3, h4⟩ := hs.page_of (show a - s.vaddr < s.size by omega)
  rw [Nat.add_sub_of_le hlo] at h1 h2
  rw [Nat.add_sub_of_le hlo'] at h3 h4
  obtain ⟨hle, hlt⟩ := kmapPage_between h1 h2 h3 h4
  cases Nat.le_antisymm hle (Nat.le_of_lt_succ hlt)
  exact hno _ hj hj'

end

/-- The bitmap's part of the invariant, for all ranges ever handed out: each keeps the bits of its pages for
ever, so that all have pages of their own. -/
structure AreaInv (heap : Bitmap) (all : List Remapped) (bm : Bitmap) : Prop where
  inArea : ∀ r, r ∈ all → ∃ p, r.At p
  taken : ∀ r, r ∈ all → ∀ i, r.Has i → bit bm i = true ∧ bit (initKmap heap).data i = false
  apart : all.Pairwise fun r s => ∀ i, r.Has i → ¬ s.Has i
  kept : ∀ i, bit (initKmap heap).data i = true → bit bm i = true
  bits : ∀ i, i < kmapPageNum → bit bm i = true →
    bit (initKmap heap).data i = true ∨ ∃ r, r ∈ all ∧ r.Has i

section

variable {heap bm : Bitmap} {all all' : List Remapped} {bt bt' : BitmapT} {r : Remapped} {p n : Nat}

theorem AreaInv.init (heap : Bitmap) : AreaInv heap [] (initKmap heap).data :=
  ⟨nofun, nofun, .nil, fun _ hbit => hbit, fun _ _ hbit => .inl hbit⟩

theorem AreaInv.perm (hi : AreaInv heap all bm) (hperm : all.Perm all') : AreaInv heap all' bm := by
  refine ⟨fun r hr => hi.inArea r (hperm.mem_iff.mpr hr), fun r hr => hi.taken r (hperm.mem_iff.mpr hr),
    (hperm.pairwise_iff fun hno i h1 h2 => hno i h2 h1).mp hi.apart, hi.kept, fun i hlt hbit => ?_⟩
  rcases hi.bits i hlt hbit with hinit | ⟨r, hr, hhas⟩
  · exact .inl hinit
  · exact .inr ⟨r, hperm.mem_iff.mp hr, hhas⟩

/-- A range does not have pages that are free. -/
theorem AreaInv.not_has (hi : AreaInv heap all bm) (hr : r ∈ all) {i : Nat} (hfree : bit bm i = false) :
    ¬ r.Has i := by
  intro hhas
  have hbit := (hi.taken r hr i hhas).1
  rw [hfree] at hbit
  cases hbit

/-- A granted range joins the others. -/
theorem AreaInv.grant (hi : AreaInv heap all bt.data) (hat : r.At p)
    (hg : Granted bt bt' (pageCount r.size) p) : AreaInv heap (r :: all) bt'.data := by
  refine ⟨?_, ?_, .cons (fun s hs i hhas => ?_) hi.apart, fun i hbit => ?_, fun i hlt hbit => ?_⟩
  · rintro s (_ | ⟨_, hs⟩)
    · exact ⟨p, hat⟩
    · exact hi.inArea s hs
  · rintro s (_ | ⟨_, hs⟩) i hhas
    · obtain ⟨h1, h2⟩ := hat.has_iff.mp hhas
      refine ⟨by rw [hg.bits i, decide_eq_true ⟨h1, h2⟩, Bool.true_or], ?_⟩
      refine Bool.eq_false_iff.mpr fun hinit => ?_
      have hbit := hi.kept i hinit
      rw [hg.free i h1 h2] at hbit
      cases hbit
    · obtain ⟨hbit, hinit⟩ := hi.taken s hs i hhas
      exact ⟨by rw [hg.bits i, hbit, Bool.or_true], hinit⟩
  · obtain ⟨h1, h2⟩ := hat.has_iff.mp hhas
    exact hi.not_has hs (hg.free i h1 h2)
  · rw [hg.bits i, hi.kept i hbit, Bool.or_true]
  · rw [hg.bits i, Bool.or_eq_true, decide_eq_true_eq] at hbit
    rcases hbit with hin | hbit
    · exact .inr ⟨r, List.mem_cons_self, hat.has_iff.mpr hin⟩
    · rcases hi.bits i hlt hbit with hinit | ⟨s, hs, hhas⟩
      · exact .inl hinit
      · exact .inr ⟨s, List.mem_cons_of_mem _ hs, hhas⟩

/-- A byte of a range is in the area. -/
theorem AreaInv.below (hi : AreaInv heap all bm) (hr : r ∈ all) {i : Nat} (hlt : i < r.size) :
    r.vaddr + i < 2 ^ 48 := by
  obtain ⟨p, hat⟩ := hi.inArea r hr
  obtain ⟨j, hj, -, hhi⟩ := hat.page_of hlt
  have hj := hat.has_iff.mp hj
  have hin := hat.inside
  have hend : kmapPage (j + 1) < 2 ^ 40 := kmapPage_lt (by omega)
  omega

/-- A byte of a range is not on pages that the range does not have. -/
theorem AreaInv.off (hi : AreaInv heap all bm) (hr : r ∈ all) {m i : Nat} (hlt : i < r.size)
    (hno : ∀ j, m ≤ j → j < n → ¬ r.Has j) : ¬ (kmapPage m ≤ r.vaddr + i ∧ r.vaddr + i < kmapPage n) := by
  rintro ⟨hm, hn⟩
  obtain ⟨q, hat⟩ := hi.inArea r hr
  obtain ⟨j, hj, hlo, hhi⟩ := hat.page_of hlt
  obtain ⟨h1, h2⟩ := kmapPage_between hlo hhi hm hn
  exact hno j h1 h2 hj

end

/-- The invariant of the runs: live ranges translate, and a page with a clear bit has no address. -/
structure KmapInv (L : Layout) (root : Nat) (heap : Bitmap) (live gone : List Remapped) (k : Kmap) :
    Prop where
  built : HostBuilt L root k.host
  map : OfKmap k.map
  area : AreaInv heap (live ++ gone) k.map.data
  clear : ∀ i, i < kmapPageNum → bit k.map.data i = false →
    hostAddress k.host.mem root (kmapPage i) = none
  translates : ∀ r, r ∈ live → ∀ i, i < r.size →
    hostAddress k.host.mem root (r.vaddr + i) = some (r.phy + i)

section

variable {L : Layout} {root phy size attr p n : Nat} {heap : Bitmap} {live gone : List Remapped}
  {k k' : Kmap} {r : Remapped} {h : Host}

theorem KmapInv.init (hb : HostBuilt L root h)
    (hnone : ∀ n, n < kmapPageNum → hostAddress h.mem root (kmapPage n) = none) :
    KmapInv L root heap [] [] ⟨initKmap heap, h⟩ :=
  ⟨hb, initKmap_ofKmap heap, .init heap, fun i hi _ => hnone i hi, nofun⟩

/-- A request keeps the invariant. -/
theorem KmapInv.remap (hr : BootPgtable L root) (hi : KmapInv L root heap live gone k)
    (ha : Answerable L root k phy size n) (hrun : ioremap L root phy size attr k = .ok p k') :
    KmapInv L root heap (⟨p, phy, size⟩ :: live) gone k' := by
  obtain ⟨q, bt', h', hg, hpool, hloop, rfl, rfl⟩ := ioremap_ok hi.map ha hrun
  have hcnt := pageCount_small ha.int
  have hphys := ha.physical
  have hin := hg.inside
  have hnone (i : Nat) (h1 : q ≤ i) (h2 : i < q + pageCount size) :
      hostAddress k.host.mem root (kmapPage i) = none := hi.clear i (by omega) (hg.free i h1 h2)
  have hend : phy + pageSize * pageCount size ≤ 2 ^ 48 := by
    have hal := ha.aligned
    rw [pageSize] at hal ⊢
    omega
  obtain ⟨hb, hnew, hold⟩ := mapArea_ok hr hi.built hin hnone hpool ha.aligned hend hloop
  have hat : (⟨kmapPage q, phy, size⟩ : Remapped).At q := ⟨rfl, hin, ha.int⟩
  refine ⟨hb, hg.after, hi.area.grant hat hg, fun i hlt hbit => ?_, ?_⟩
  · rw [hg.bits i, Bool.or_eq_false_iff, decide_eq_false_iff_not] at hbit
    have hend := kmapPage_lt (Nat.le_of_lt hlt)
    rw [hold (kmapPage i) (by omega) fun hout => hbit.1 ?_]
    · exact hi.clear i hlt hbit.2
    · rw [kmapPage, kmapPage, kmapPage, pageSize] at hout
      omega
  · rintro s (_ | ⟨_, hs⟩) i hlt
    · have hlt : i < size := hlt
      show hostAddress h'.mem root (kmapPage q + i) = some (phy + i)
      rw [hnew (kmapPage q + i) (Nat.le_add_right _ _) (by rw [kmapPage, kmapPage, pageSize]; omega),
        Nat.add_sub_cancel_left]
    · have hmem : s ∈ live ++ gone := List.mem_append.mpr (.inl hs)
      -- the request's pages were free, those of the range are taken
      rw [hold (s.vaddr + i) (hi.area.below hmem hlt)
        (hi.area.off hmem hlt fun j h1 h2 => hi.area.not_has hmem (hg.free j h1 h2))]
      exact hi.translates s hs i hlt

/-- An unmapping keeps the invariant. -/
theorem KmapInv.unmap (hr : BootPgtable L root) (hi : KmapInv L root heap live gone k) (hmem : r ∈ live)
    (hrun : iounmap L root r.vaddr r.size k = .ok () k') :
    KmapInv L root heap (live.erase r) (r :: gone) k' := by
  have hperm : (live ++ gone).Perm (live.erase r ++ r :: gone) :=
    ((List.perm_cons_erase hmem).append_right gone).trans List.perm_middle.symm
  have harea := hi.area.perm hperm
  obtain ⟨q, hat⟩ := hi.area.inArea r (List.mem_append.mpr (.inl hmem))
  rw [hat.vaddr] at hrun
  obtain ⟨h', hloop, rfl⟩ := iounmap_ok hat.inside hat.int hrun
  obtain ⟨hb, hnone, hold⟩ := unmapArea_ok hr hi.built hat.inside hloop
  refine ⟨hb, hi.map, harea, fun i hlt hbit => hnone _ (hi.clear i hlt hbit), fun s hs i hlt => ?_⟩
  have hlive : s ∈ live ++ gone := List.mem_append.mpr (.inl (List.mem_of_mem_erase hs))
  -- the other live ranges have pages of their own
  have hno := (List.pairwise_append.mp harea.apart).2.2 s hs r List.mem_cons_self
  rw [hold _ (hi.area.below hlive hlt)
    (hi.area.off hlive hlt fun j h1 h2 hhas => hno j hhas (hat.has_iff.mpr ⟨h1, h2⟩))]
  exact hi.translates s (List.mem_of_mem_erase hs) i hlt

theorem KmapInv.other (hr : BootPgtable L root) (hi : KmapInv L root heap live gone k)
    (hu : HostIdle L root k.host h) : KmapInv L root heap live gone ⟨k.map, h⟩ := by
  have hsame := hi.built.idle hr hu
  exact ⟨hi.built.other hu, hi.map, hi.area,
    fun i hlt hbit => (hsame _).trans (hi.clear i hlt hbit),
    fun s hs i hlt => (hsame _).trans (hi.translates s hs i hlt)⟩

/-- Every state of a run keeps the invariant. -/
theorem KmapRun.inv (hr : BootPgtable L root) (hrun : KmapRun L root heap live gone k) :
    KmapInv L root heap live gone k := by
  induction hrun with
  | init hb hnone => exact .init hb hnone
  | remap _ ha hcall ih => exact ih.remap hr ha hcall
  | remapPage _ ha hcall ih =>
    have hphys := ha.physical
    rw [ioremapPage_eq (by omega)] at hcall
    exact ih.remap hr ha hcall
  | unmap _ hmem hcall ih => exact ih.unmap hr hmem hcall
  | @unmapPage live gone k k' r _ hmem hsize hcall ih =>
    obtain ⟨p, hat⟩ := ih.area.inArea r (List.mem_append.mpr (.inl hmem))
    have hlt := kmapPage_lt (Nat.le_trans (Nat.le_add_right p _) hat.inside)
    rw [hat.vaddr, iounmapPage_eq (by omega), ← hsize, ← hat.vaddr] at hcall
    exact ih.unmap hr hmem hcall
  | other _ hu ih => exact ih.other hr hu

theorem KmapInv.remaps (hi : KmapInv L root heap live gone k) : Remaps root live k := by
  have hmem (r : Remapped) (hr : r ∈ live) : r ∈ live ++ gone := List.mem_append.mpr (.inl hr)
  refine ⟨fun r hr => ?_, ?_, hi.translates⟩
  · obtain ⟨p, hat⟩ := hi.area.inArea r (hmem r hr)
    have hin := hat.inside
    have hcnt := pageCount_small hat.int
    rw [kmapPageNum] at hin
    rw [hat.vaddr, kmapPage, kmapVirtStart, kmapVirtEnd, pageSize]
    omega
  · refine (List.pairwise_append.mp hi.area.apart).1.imp_of_mem fun {r s} hr hs hno a hlo hhi => ?_
    obtain ⟨p, hp⟩ := hi.area.inArea r (hmem r hr)
    obtain ⟨q, hq⟩ := hi.area.inArea s (hmem s hs)
    exact hp.apart hq hno hlo hhi

/-- The addresses are returned exactly if no page was unmapped. -/
theorem KmapInv.returned_iff (hi : KmapInv L root heap live gone k) :
    Returned heap live k ↔ ∀ r, r ∈ gone → r.size = 0 := by
  constructor
  · intro hret r hr
    refine Nat.eq_zero_of_not_pos fun hpos => ?_
    have hmem : r ∈ live ++ gone := List.mem_append.mpr (.inr hr)
    obtain ⟨p, hat⟩ := hi.area.inArea r hmem
    obtain ⟨j, hj, -⟩ := hat.page_of hpos
    obtain ⟨hbit, hinit⟩ := hi.area.taken r hmem j hj
    have hlt := hat.has_iff.mp hj
    have hin := hat.inside
    rcases hret j (by omega) hbit with hinit' | ⟨s, hs, hhas⟩
    · rw [hinit] at hinit'
      cases hinit'
    · exact (List.pairwise_append.mp hi.area.apart).2.2 s hs r hr j hhas hj
  · intro hgone i hlt hbit
    rcases hi.area.bits i hlt hbit with hinit | ⟨r, hr, hhas⟩
    · exact .inl hinit
    · rcases List.mem_append.mp hr with hlive | hgone'
      · exact .inr ⟨r, hlive, hhas⟩
      · have hsize := hgone r hgone'
        obtain ⟨h1, h2⟩ := hhas
        omega

/-- With its tables in the direct map, an answerable request returns. -/
theorem KmapInv.answers (hr : BootPgtable L root) (hi : KmapInv L root heap live gone k)
    (ha : Answerable L root k phy size n)
    (hroom : pagesNeeded L root k.host (fun i => kmapPage (n + i)) (pageCount size) ≤
      evenFree k.host.bitmap (2 ^ 17)) (attr : Nat) :
    ∃ p k', ioremap L root phy size attr k = .ok p k' := by
  obtain ⟨q, bt', hg, hfirst, heq⟩ := ioremap_eq hi.map ha attr
  have hcnt := pageCount_small ha.int
  have hin := hg.inside
  rw [← pagesNeeded_first ha.int hfirst] at hroom
  obtain ⟨h', hloop, -⟩ := hi.built.map_pages hr
    (fun i hlt => hi.clear (q + i) (by omega) (hg.free _ (Nat.le_add_right _ _) (by omega)))
    (fun i j hij hj => kmapPage_distinct (by omega) (by omega) (by omega)) hroom
    (fun i => phy + pageSize * i) attr
  have hon : onHost (mapArea L root q phy attr (pageCount size)) ⟨bt', k.host⟩ = .ok () ⟨bt', h'⟩ :=
    onHost_of hloop
  refine ⟨kmapPage q, ⟨bt', h'⟩, ?_⟩
  rw [heq, kmap_bind_ok hon]
  rfl

end

/-! ## The first page after boot -/

/-- The state after `init_kmap`, with clear memory and an empty pool. -/
def bootKmap (heap : Bitmap) : Kmap := ⟨initKmap heap, clearHost initPageAllocator⟩

theorem bootKmap_first (heap : Bitmap) : HasRoom (bootKmap heap).map pageSize 0 := by
  have hone : pageCount pageSize = 1 := by decide
  refine .inr ⟨⟨Nat.one_dvd _, by rw [hone]; decide, fun j _ hj => ?_⟩, Nat.le_refl 0, fun j _ _ => Nat.zero_le j⟩
  rw [hone] at hj
  show ¬ bit (createBitmap heap kmapVirtStart pageSize _).data j = true
  rw [bit_createBitmap, decide_eq_false (by omega), Bool.false_and]
  exact Bool.false_ne_true

theorem bootKmap_built (heap : Bitmap) : HostBuilt imageLayout 0x40200000 (bootKmap heap).host :=
  MapUnmap.hostBuilt_clear imageLayout 0x40200000 initPageAllocator

theorem bootKmap_none (heap : Bitmap) (va : Nat) :
    hostAddress (bootKmap heap).host.mem 0x40200000 va = none := rfl

/-- The first `ioremap_page` maps the first page of the area. -/
theorem bootKmap_page (heap : Bitmap) (phy attr : Nat) :
    ∃ bt' h', ioremapPage imageLayout 0x40200000 phy attr (bootKmap heap) = .ok (kmapPage 0) ⟨bt', h'⟩ ∧
      hostAddress h'.mem 0x40200000 (kmapPage 0) = hostAddr (kmapPage 0) (makeStage1Entry phy 0) := by
  have hroom : hostNeeded 0x40200000 (bootKmap heap).host (kmapPage 0) ≤
      evenFree (bootKmap heap).host.bitmap (2 ^ 17) := by
    rw [bootKmap, MapUnmap.hostNeeded_clear]
    exact Riscv64.evenFree_init
  obtain ⟨h', hmap, -, -, hwalk⟩ := (bootKmap_built heap).map_page MapUnmap.imageBootPgtable
    (bootKmap_none heap _) hroom phy attr
  obtain ⟨p, bt', halloc, -, hfirst⟩ := bitmapAllocRange_first (initKmap_ofKmap heap)
    (show pageSize < 2 ^ 31 by decide) (bootKmap_first heap)
  cases hfirst (by decide)
  have hvm : vmalloc pageSize (bootKmap heap) = .ok (kmapPage 0) ⟨bt', (bootKmap heap).host⟩ := by
    rw [vmalloc, bootKmap, halloc]
  have hon : onHost (hostMapOnePage imageLayout 0x40200000 (kmapPage 0) phy attr)
      ⟨bt', (bootKmap heap).host⟩ = .ok () ⟨bt', h'⟩ := onHost_of hmap
  refine ⟨bt', h', ?_, by rw [hwalk, if_pos (AgreeTo.refl _ _)]⟩
  rw [ioremapPage, kmap_bind_ok hvm, if_neg (by decide), kmap_bind_ok hon]
  rfl

/-- At boot the UART is mapped for a moment. -/
def uartPage : Remapped := ⟨kmapPage 0, 0x09000000, pageSize⟩

theorem uartPage_answerable (heap : Bitmap) :
    Answerable imageLayout 0x40200000 (bootKmap heap) 0x09000000 pageSize 0 := by
  refine ⟨by decide, by decide, by decide, bootKmap_first heap, ?_⟩
  have hle : pagesNeeded imageLayout 0x40200000 (bootKmap heap).host (fun i => kmapPage (0 + i))
      (pageCount pageSize) ≤ 3 * pageCount pageSize := needed_le _
  have hone : pageCount pageSize = 1 := by decide
  have hpool : 3 ≤ evenFree (bootKmap heap).host.bitmap (totalPages / 2) :=
    Nat.le_trans Riscv64.evenFree_init (evenFree_mono (show 2 ^ 17 ≤ totalPages / 2 by decide))
  omega

theorem uartPage_mapped (heap : Bitmap) : ∃ k, KmapRun imageLayout 0x40200000 heap [uartPage] [] k := by
  obtain ⟨bt', h', hrun, -⟩ := bootKmap_page heap 0x09000000 7
  have hinit : KmapRun imageLayout 0x40200000 heap [] [] (bootKmap heap) :=
    .init (bootKmap_built heap) fun n _ => bootKmap_none heap (kmapPage n)
  exact ⟨⟨bt', h'⟩, .remapPage hinit (uartPage_answerable heap) hrun⟩

theorem uartPage_unmapped (heap : Bitmap) : ∃ k, KmapRun imageLayout 0x40200000 heap [] [uartPage] k := by
  obtain ⟨k, hrun⟩ := uartPage_mapped heap
  have hi := hrun.inv MapUnmap.imageBootPgtable
  have haddr : hostAddress k.host.mem 0x40200000 (kmapPage 0) = some (0x09000000 + kmapPage 0 % 4096) :=
    hi.translates uartPage List.mem_cons_self 0 (by decide)
  obtain ⟨h', hcall, -⟩ := hi.built.unmap_page MapUnmap.imageBootPgtable haddr (by decide) (by decide)
  have hgone := KmapRun.unmapPage hrun List.mem_cons_self rfl (onHost_of hcall)
  rw [List.erase_cons_head] at hgone
  exact ⟨_, hgone⟩

end HyperCore.Ioremap
