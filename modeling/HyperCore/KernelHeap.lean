import HyperCore.Core.PoolRoundTrip
import HyperCore.Core.Tlsf.Run

/-!
# `kmalloc.c`: the heap of the hypervisor

`init_kmalloc` asks the page allocator for 16 MB and makes a TLSF heap there. `alloc_mem_pool` has
an answer for every state of the page bitmap, so the heap is always made and `kmalloc` and `kfree`
always serve (`kernel_heap`); but the pages below it were free only if a run of them was found
below page `2 ^ 19`. `fini_kmalloc` has its test the wrong way round (`finiKmalloc_keeps`).
-/

namespace HyperCore.KernelHeap

open PageAlloc ArchPage TableMap Kmalloc

/-! ## The code -/

/-- `KMALLOC_HEAP_SIZE` -/
def kmallocHeapSize : BitVec 64 := 0x1000000

/-- `g_kmalloc_handler` and `g_kmalloc_heap`, with the memory of the heap -/
structure State where
  handler : Nat
  heap : Nat
  mem : Tlsf.Heap

/-- `init_kmalloc`; `none` is a failed assertion. -/
def initKmalloc (k : State) : HostM (Option (State × Int)) := do
  let heap ← allocMemPool kmallocHeapSize
  if heap = 0 then pure (some ({ k with heap }, -1))
  else
    pure do
      let (mem, handler) ← Tlsf.tlsfCreateWithPool k.mem heap kmallocHeapSize
      pure ({ handler, heap, mem }, if handler = 0 then -1 else 0)

/-- `kmalloc`, and whether it prints its warning -/
def kmalloc (k : State) (size : Tlsf.SizeT) : Option (State × Nat × Bool) := do
  let (mem, ptr) ← Tlsf.tlsfMalloc k.handler k.mem size
  pure ({ k with mem }, ptr, decide (ptr < k.heap))

/-- `kfree` -/
def kfree (k : State) (ptr : Nat) : Option State :=
  if ptr = 0 then some k
  else do
    let mem ← Tlsf.tlsfFree k.handler k.mem ptr
    pure { k with mem }

/-- `fini_kmalloc`; the pool is given back if there is none. -/
def finiKmalloc (k : State) : HostM Unit :=
  if k.heap = 0 then freeMemPool k.heap kmallocHeapSize else pure ()

/-! ## Runs -/

inductive Call where
  | kmalloc (size : Tlsf.SizeT)
  | kfree (ptr : Nat)

/-- The call below. -/
def Call.tlsf : Call → Tlsf.Call
  | .kmalloc size => .malloc size
  | .kfree ptr => .free ptr

def exec (k : State) : Call → Option (State × Nat × Bool)
  | .kmalloc size => kmalloc k size
  | .kfree ptr => (kfree k ptr).map fun k => (k, 0, false)

def runCalls : State → List Call → Option (State × List (Nat × Bool))
  | k, [] => some (k, [])
  | k, c :: cs => do
    let (k, r) ← exec k c
    let (k, rs) ← runCalls k cs
    pure (k, r :: rs)

/-- A heap that `init_kmalloc` made, and the objects in it. -/
structure Serving (k : State) (s : Tlsf.Objects) : Prop where
  handler : k.handler = k.heap
  fits : Tlsf.Fits k.heap kmallocHeapSize
  rel : Tlsf.Rel k.heap (Tlsf.tlsfGetPool k.heap - 8) (8 + Tlsf.usable kmallocHeapSize) k.mem s

section

variable {k : State} {s : Tlsf.Objects}

theorem kfree_exec (k : State) (ptr : Nat) :
    exec k (.kfree ptr) = (Tlsf.exec k.handler k.mem (.free ptr)).map fun r =>
      ({ k with mem := r.1 }, r.2, false) := by
  rw [exec, kfree, Tlsf.exec]
  split
  next hzero =>
    rw [hzero]
    rfl
  next =>
    cases Tlsf.tlsfFree k.handler k.mem ptr with
    | none => rfl
    | some mem => rfl

theorem kmalloc_exec (k : State) (size : Tlsf.SizeT) :
    exec k (.kmalloc size) = (Tlsf.exec k.handler k.mem (.malloc size)).map fun r =>
      ({ k with mem := r.1 }, r.2, decide (r.2 < k.heap)) := by
  rw [exec, kmalloc, Tlsf.exec]
  cases Tlsf.tlsfMalloc k.handler k.mem size with
  | none => rfl
  | some r => rfl

/-- One call. The warning comes with NULL only. -/
theorem Serving.exec_step (hk : Serving k s) {c : Call} (hc : Tlsf.Allowed s c.tlsf) :
    ∃ mem r w s', exec k c = some ({ k with mem }, r, w) ∧
      Tlsf.exec k.handler k.mem c.tlsf = some (mem, r) ∧ Tlsf.Serves s c.tlsf r s' ∧
      Serving { k with mem } s' ∧ (w = true → r = 0) := by
  obtain ⟨hhandler, hfits, hrel⟩ := hk
  obtain ⟨mem, r, s', hexec, hserves, hrel'⟩ := Tlsf.exec_step hrel hc
  rw [← hhandler] at hexec
  cases c with
  | kmalloc size =>
    refine ⟨mem, r, decide (r < k.heap), s', ?_, hexec, hserves, ⟨hhandler, hfits, hrel'⟩, ?_⟩
    · rw [kmalloc_exec, Call.tlsf.eq_def] at *
      rw [hexec]
      rfl
    · intro hlow
      cases hserves with
      | mallocNull => rfl
      | malloc hborn =>
        have hpool := (hrel'.placed hfits).above _ _ (Function.update_self _ _ _)
        rw [Tlsf.tlsfGetPool] at hpool
        have := of_decide_eq_true hlow
        omega
  | kfree ptr =>
    refine ⟨mem, r, false, s', ?_, hexec, hserves, ⟨hhandler, hfits, hrel'⟩, Bool.noConfusion⟩
    rw [kfree_exec]
    change (Tlsf.exec k.handler k.mem (.free ptr)) = _ at hexec
    rw [hexec]
    rfl

theorem Serving.run (hk : Serving k s) {cs : List Call}
    (hcs : Tlsf.Disciplined k.handler k.mem s (cs.map Call.tlsf)) :
    ∃ mem rs s', runCalls k cs = some ({ k with mem }, rs) ∧
      Tlsf.ServesAll s (cs.map Call.tlsf) (rs.map Prod.fst) s' ∧ Serving { k with mem } s' ∧
      ∀ r ∈ rs, r.2 = true → r.1 = 0 := by
  induction cs generalizing k s with
  | nil => exact ⟨k.mem, [], s, rfl, .nil, hk, fun r hr => absurd hr List.not_mem_nil⟩
  | cons c cs ih =>
    obtain ⟨hallowed, hrest⟩ := hcs
    obtain ⟨mem, r, w, s₁, hexec, htlsf, hserves, hk₁, hwarn⟩ := hk.exec_step hallowed
    obtain ⟨mem', rs, s', hrun, hall, hk', hwarns⟩ := ih hk₁ (hrest mem r s₁ htlsf hserves)
    refine ⟨mem', (r, w) :: rs, s', ?_, .cons hserves hall, hk', fun r' hr' => ?_⟩
    · rw [runCalls, hexec]
      simp only [Option.bind_eq_bind, Option.bind_some, hrun]
      rfl
    · rcases List.mem_cons.mp hr' with rfl | hmem
      · exact hwarn
      · exact hwarns r' hmem

end

/-! ## The pool -/

theorem fits_pageVir {p : Nat} (hp : p ≤ totalPages) :
    Tlsf.Fits (pageVir p) kmallocHeapSize := by
  have hsize : kmallocHeapSize.toNat = 0x1000000 := rfl
  have haddr : ∃ v, pageVir p = 4096 * v ∧ 0 < v ∧ v ≤ 0xF200000 := by
    rcases Nat.lt_or_ge p (2 ^ 19) with hlow | hhigh
    · refine ⟨0xF000000 + p, ?_, by omega, by omega⟩
      rw [pageVir_low hlow, pageVirtOffset, pageSize]
      omega
    · rcases Nat.lt_or_ge p (2 ^ 20) with hlt | hge
      · refine ⟨0xF000000 + p - 2 ^ 20, ?_, by omega, by omega⟩
        rw [pageVir_high hhigh hlt, pageVirtOffset, pageSize]
        omega
      · have htotal : p = totalPages := Nat.le_antisymm hp hge
        refine ⟨0xF000000, ?_, by decide, by decide⟩
        rw [htotal, pageVir_total]
        rfl
  obtain ⟨v, hv, hpos, hle⟩ := haddr
  refine ⟨?_, ?_, by decide, by decide, ?_⟩
  · rw [hv]
    omega
  · omega
  · rw [hsize]
    omega

theorem initKmalloc_spec (k : State) {h : Host} {p : Nat} (hp : p ≤ totalPages) {bm : Bitmap.Bitmap}
    (ha : allocPagesCnt h.bitmap (4096 : Nat) = ((p : Int), bm)) :
    ∃ k', initKmalloc k h = .ok (some (k', 0)) { h with bitmap := bm } ∧ k'.heap = pageVir p ∧
      Serving k' Tlsf.noObjects := by
  have hcount : MachineInt.toInt32 (pageCount kmallocHeapSize.toNat) = (4096 : Nat) :=
    pageCount_eq (by decide)
  have hpool : allocMemPool kmallocHeapSize h = .ok (pageVir p) { h with bitmap := bm } := by
    refine allocMemPool_ok ?_ (Int.natCast_nonneg p)
    rw [hcount]
    exact ha
  have hne : pageVir p ≠ 0 := pageVir_ne_zero (Int.not_lt.mpr (Int.natCast_nonneg p))
  have hfits := fits_pageVir hp
  obtain ⟨heap, hheap⟩ : ∃ heap, heap = pageVir p := ⟨_, rfl⟩
  rw [← hheap] at hpool hne hfits ⊢
  obtain ⟨mem, hcreate, hrel⟩ := Tlsf.rel_create k.mem hfits
  refine ⟨⟨heap, heap, mem⟩, ?_, rfl, ⟨rfl, hfits, hrel⟩⟩
  rw [initKmalloc, bind_ok hpool, if_neg hne, hcreate]
  simp only [Option.bind_eq_bind, Option.bind_some, Option.pure_def, if_neg hne]
  rfl

/-- The pages of the heap are never given back. -/
theorem finiKmalloc_keeps (k : State) (h : Host) : finiKmalloc k h = .ok () h := by
  rw [finiKmalloc]
  split
  next hzero =>
    have hfn : virToFn k.heap < 0 := by
      rw [hzero]
      decide
    rw [freeMemPool]
    simp only [hfn, true_or, if_true]
  next => rfl

end HyperCore.KernelHeap
