import HyperCore.Riscv64.GuestDtb

/-!
# The guest's device tree reads back

`Emits` says what a piece of the encoder appends at the cursor, and `Pool` what the strings pool
holds. Together they give the blob after any number of calls (`Built`), and its end
(`Finished`), which the decoder of the format and `find_bootargs` then read.
-/

namespace HyperCore.Riscv64

open FlatTree

/-! ## What the calls describe -/

def DtbCall.event : DtbCall → Event
  | .beginNode name => .beginNode name.1
  | .endNode => .endNode
  | .propRaw name data => .prop name.1 data
  | .propString name value => .prop name.1 (value.1 ++ [0])
  | .propU32 name value => .prop name.1 (be32 value)
  | .propU64 name value => .prop name.1 (be64 value)

def events (calls : List DtbCall) : List Event := calls.map DtbCall.event

/-- The name of a property. -/
def propName : Event → Option Bytes
  | .prop name _ => some name
  | _ => none

/-- A name joins the pool unless it is there. -/
def addName (pool : List Bytes) (name : Bytes) : List Bytes :=
  if name ∈ pool then pool else pool ++ [name]

/-- The pool after the events. -/
def namePool (es : List Event) : List Bytes := (es.filterMap propName).foldl addName []

/-- The names, each with its NUL. -/
def poolBytes (pool : List Bytes) : Bytes := pool.flatMap fun name => name ++ [0]

/-- Where a name of the pool starts. -/
def nameOffset : List Bytes → Bytes → Nat
  | [], _ => 0
  | first :: pool, name => if first = name then 0 else first.length + 1 + nameOffset pool name

def roundUp4 (n : Nat) : Nat := (n + 3) / 4 * 4

/-- The bytes of an event in the structure block. -/
def eventSize : Event → Nat
  | .beginNode name => 4 + roundUp4 (name.length + 1)
  | .endNode => 4
  | .prop _ value => 12 + roundUp4 value.length

/-- The events fit the buffers: `g_strings`, and the blob with its header, structure block, end
token and strings. -/
def FitsBuffers (es : List Event) : Prop :=
  (poolBytes (namePool es)).length ≤ gStringsCapacity ∧
    (56 + (es.map eventSize).sum + 4 + 7) / 8 * 8 + (poolBytes (namePool es)).length ≤ guestDtbSize

theorem eventSize_eq (off : Bytes → Nat) (e : Event) : (encodeEvent off e).length = eventSize e := by
  cases e with
  | beginNode name =>
    simp only [encodeEvent, eventSize, List.length_append, length_padded, length_be32,
      List.length_singleton, padding, roundUp4]
    omega
  | endNode => rw [encodeEvent, length_be32, eventSize]
  | prop name value =>
    simp only [encodeEvent, eventSize, List.length_append, length_padded, length_be32, padding,
      roundUp4]
    omega

theorem length_encode_eq (off : Bytes → Nat) (es : List Event) :
    (encode off es).length = (es.map eventSize).sum := by
  rw [encode, List.length_flatMap]
  exact congrArg List.sum (List.map_congr_left fun e _ => eventSize_eq off e)

/-! ## The cursor -/

/-- The step from `s` to `s'` appends `bs` at the cursor and leaves the pool alone. -/
structure Emits (s s' : DtbState) (bs : Bytes) : Prop where
  next : s'.gStruct = s.gStruct + bs.length
  bytes : readBytes s'.mem s.gStruct bs.length = bs
  below : ∀ a n, a + n ≤ s.gStruct → readBytes s'.mem a n = readBytes s.mem a n
  dtb : s'.gDtb = s.gDtb
  start : s'.gStructStart = s.gStructStart
  strings : s'.gStrings = s.gStrings
  size : s'.gStringsSize = s.gStringsSize

variable {s s' s'' : DtbState} {bs bs' : Bytes}

theorem Emits.trans (h : Emits s s' bs) (h' : Emits s' s'' bs') : Emits s s'' (bs ++ bs') where
  next := by rw [h'.next, h.next, List.length_append, Nat.add_assoc]
  bytes := by
    rw [List.length_append, readBytes_add, h'.below _ _ (Nat.le_of_eq h.next.symm), h.bytes,
      ← h.next, h'.bytes]
  below a n hle := by rw [h'.below a n (by rw [h.next]; omega), h.below a n hle]
  dtb := h'.dtb.trans h.dtb
  start := h'.start.trans h.start
  strings := h'.strings.trans h.strings
  size := h'.size.trans h.size

theorem Emits.refl (s : DtbState) : Emits s s [] where
  next := rfl
  bytes := rfl
  below _ _ _ := rfl
  dtb := rfl
  start := rfl
  strings := rfl
  size := rfl

/-- A store at the cursor. -/
theorem emits_store (s : DtbState) (bs : Bytes) :
    Emits s { s with mem := writeBytes s.mem s.gStruct bs, gStruct := s.gStruct + bs.length } bs where
  next := rfl
  bytes := readBytes_writeBytes s.mem s.gStruct bs
  below _ _ hle := readBytes_apart (.inl hle)
  dtb := rfl
  start := rfl
  strings := rfl
  size := rfl

theorem emits_be32 (s : DtbState) (v : BitVec 32) : Emits s (emitBe32 s v) (be32 v) :=
  emits_store s (be32 v)

/-- The padding takes the cursor to the next multiple of 4. -/
theorem emits_padStruct {fuel : Nat} (s : DtbState) (hfuel : padding s.gStruct ≤ fuel) :
    Emits s (padStruct fuel s) (List.replicate (padding s.gStruct) 0) := by
  induction fuel generalizing s with
  | zero =>
    rw [Nat.le_zero.mp hfuel]
    exact Emits.refl s
  | succ fuel ih =>
    rw [padStruct]
    split
    · rename_i haligned
      rw [padding, haligned]
      exact Emits.refl s
    · rename_i hodd
      have hpad : padding s.gStruct = padding (s.gStruct + 1) + 1 := by
        simp only [padding]
        omega
      have hle : padding (s.gStruct + 1) ≤ fuel := by omega
      rw [hpad, List.replicate_succ]
      exact (emits_store s [0]).trans (ih _ hle)

theorem emits_bytes (h : s.gStruct % 4 = 0) (data : Bytes) :
    Emits s (emitBytes s data) (padded data) := by
  have hpad : padding (s.gStruct + data.length) = padding data.length := by
    simp only [padding]
    omega
  have hrest := emits_padStruct
    { s with mem := writeBytes s.mem s.gStruct data, gStruct := s.gStruct + data.length }
    (Nat.le_of_lt_succ (padding_spec (s.gStruct + data.length)).2)
  rw [hpad] at hrest
  exact (emits_store s data).trans hrest

theorem aligned_emit (h : s.gStruct % 4 = 0) (he : Emits s s' bs) (hbs : bs.length % 4 = 0) :
    s'.gStruct % 4 = 0 := by
  rw [he.next]
  omega

/-- What `prop_raw` emits once it has the name's offset. -/
theorem emits_prop (h : s.gStruct % 4 = 0) (off : Bytes → Nat) (name data : Bytes) :
    Emits s (emitBytes (emitBe32 (emitBe32 (emitBe32 s fdtProp) (BitVec.ofNat 32 data.length))
      (BitVec.ofNat 32 (off name))) data) (encodeEvent off (.prop name data)) := by
  have hhead := ((emits_be32 s fdtProp).trans (emits_be32 _ (BitVec.ofNat 32 data.length))).trans
    (emits_be32 _ (BitVec.ofNat 32 (off name)))
  exact hhead.trans (emits_bytes (aligned_emit h hhead (by simp)) data)

theorem emits_beginNode (h : s.gStruct % 4 = 0) (off : Bytes → Nat) (name : CStr) :
    Emits s (beginNode s name) (encodeEvent off (.beginNode name.1)) :=
  (emits_be32 s fdtBeginNode).trans
    (emits_bytes (aligned_emit h (emits_be32 s fdtBeginNode) rfl) (name.1 ++ [0]))

/-! ## The strings pool -/

section

variable {f : Nat → BitVec 8} {a : Nat} {first name : Bytes} {pool more : List Bytes}

/-- Only the string itself compares equal to the string in memory. -/
theorem strEq_iff (h : readBytes f a (first.length + 1) = first ++ [0]) (hfirst : 0 ∉ first)
    (hname : 0 ∉ name) : strEq f a name = true ↔ first = name := by
  rw [strEq, beq_iff_eq]
  constructor
  · intro heq
    have h₁ := readBytes_add f a (first.length + 1) (name.length + 1)
    have h₂ := readBytes_add f a (name.length + 1) (first.length + 1)
    rw [Nat.add_comm (first.length + 1), h₂, h, heq, List.append_assoc, List.append_assoc] at h₁
    have hstr := congrArg getCString h₁
    rw [List.singleton_append, List.singleton_append, getCString_append hname,
      getCString_append hfirst] at hstr
    exact (congrArg Prod.fst (Option.some.inj hstr)).symm
  · rintro rfl
    exact h

theorem strnlen_eq {n : Nat} (h : readBytes f a (first.length + 1) = first ++ [0])
    (hfirst : 0 ∉ first) (hn : first.length < n) : strnlen f a n = first.length := by
  obtain ⟨hbytes, hnul⟩ := readBytes_split h
  have hfind : (List.range n).find? (fun i => f (a + i) == 0) = some first.length := by
    rw [List.find?_range_eq_some]
    refine ⟨?_, List.mem_range.mpr hn, fun j hj => ?_⟩
    · have hzero : [f (a + first.length + 0)] = [0] := hnul
      rw [beq_iff_eq]
      exact List.singleton_inj.mp hzero
    · rw [Bool.not_eq_true', beq_eq_false_iff_ne]
      intro hzero
      refine hfirst (hbytes ▸ ?_)
      exact List.mem_map.mpr ⟨j, List.mem_range.mpr hj, hzero⟩
  rw [strnlen, hfind, Option.getD_some]

theorem poolBytes_cons (first : Bytes) (pool : List Bytes) :
    poolBytes (first :: pool) = first ++ [0] ++ poolBytes pool := rfl

theorem length_le_poolBytes (pool : List Bytes) : pool.length ≤ (poolBytes pool).length := by
  induction pool with
  | nil => exact Nat.le_refl _
  | cons first pool ih =>
    simp only [poolBytes_cons, List.length_append, List.length_cons]
    omega

theorem nameOffset_append (h : name ∈ pool) : nameOffset (pool ++ more) name = nameOffset pool name := by
  induction pool with
  | nil => cases h
  | cons first pool ih =>
    rw [List.cons_append, nameOffset, nameOffset]
    by_cases hf : first = name
    · rw [if_pos hf, if_pos hf]
    · rw [if_neg hf, if_neg hf, ih (List.mem_of_ne_of_mem (Ne.symm hf) h)]

/-- A new name starts where the pool ended. -/
theorem nameOffset_new (h : name ∉ pool) :
    nameOffset (pool ++ [name]) name = (poolBytes pool).length := by
  induction pool with
  | nil => rw [List.nil_append, nameOffset, if_pos rfl]; rfl
  | cons first pool ih =>
    rw [List.mem_cons, not_or] at h
    rw [List.cons_append, nameOffset, if_neg (Ne.symm h.1), ih h.2, poolBytes_cons]
    simp only [List.length_append, List.length_singleton]

/-- A name of the pool is at its offset. -/
theorem drop_nameOffset (h : name ∈ pool) :
    ∃ rest, (poolBytes pool).drop (nameOffset pool name) = name ++ 0 :: rest := by
  induction pool with
  | nil => cases h
  | cons first pool ih =>
    rw [nameOffset, poolBytes_cons]
    by_cases hf : first = name
    · rw [if_pos hf, List.drop_zero, hf]
      exact ⟨poolBytes pool, by simp⟩
    · obtain ⟨rest, hrest⟩ := ih (List.mem_of_ne_of_mem (Ne.symm hf) h)
      refine ⟨rest, ?_⟩
      have hlen : first.length + 1 = (first ++ [0]).length := by simp
      rw [if_neg hf, hlen, List.drop_length_add_append, hrest]

/-- The scan finds the first place of the name. -/
theorem stringScan_spec {off size fuel : Nat} (hpool : ∀ n ∈ pool, 0 ∉ n) (hname : 0 ∉ name)
    (hsize : size = off + (poolBytes pool).length)
    (hbytes : readBytes f off (poolBytes pool).length = poolBytes pool)
    (hcap : (poolBytes pool).length ≤ gStringsCapacity) (hfuel : pool.length ≤ fuel) :
    stringScan f size name fuel off =
      if name ∈ pool then some (off + nameOffset pool name) else none := by
  induction pool generalizing off fuel with
  | nil =>
    rw [if_neg List.not_mem_nil]
    cases fuel with
    | zero => rfl
    | succ fuel =>
      have hend : size = off := hsize
      rw [stringScan, hend, if_neg (Nat.lt_irrefl _)]
  | cons first pool ih =>
    obtain ⟨fuel, rfl⟩ := Nat.exists_eq_succ_of_ne_zero (Nat.ne_of_gt (Nat.lt_of_lt_of_le
      (Nat.succ_pos _) hfuel))
    rw [List.forall_mem_cons] at hpool
    rw [poolBytes_cons] at hbytes hsize hcap
    simp only [List.length_append, List.length_singleton] at hsize hcap
    obtain ⟨hfirst, hrest⟩ := readBytes_split hbytes
    have hlen : (first ++ [0]).length = first.length + 1 := by simp
    rw [hlen] at hfirst hrest
    rw [stringScan, if_pos (by omega)]
    by_cases hf : first = name
    · subst hf
      rw [if_pos ((strEq_iff hfirst hpool.1 hname).mpr rfl), if_pos List.mem_cons_self, nameOffset,
        if_pos rfl, Nat.add_zero]
    · have hlt : first.length < gStringsCapacity := by omega
      have hend : size = off + (first.length + 1) + (poolBytes pool).length := by omega
      have hnext := ih hpool.2 hend hrest (by omega) (Nat.le_of_succ_le_succ hfuel)
      rw [if_neg fun h => hf ((strEq_iff hfirst hpool.1 hname).mp h),
        strnlen_eq hfirst hpool.1 hlt, Nat.add_assoc, hnext, nameOffset, if_neg hf]
      simp only [List.mem_cons, Ne.symm hf, false_or, Nat.add_assoc]

end

/-- `g_strings` holds the pool. -/
structure HoldsPool (s : DtbState) (pool : List Bytes) : Prop where
  size : s.gStringsSize = (poolBytes pool).length
  bytes : readBytes s.gStrings 0 (poolBytes pool).length = poolBytes pool
  strings : ∀ name ∈ pool, 0 ∉ name

theorem poolBytes_append (pool : List Bytes) (name : Bytes) :
    poolBytes (pool ++ [name]) = poolBytes pool ++ (name ++ [0]) := by
  rw [poolBytes, poolBytes, List.flatMap_append, List.flatMap_singleton]

/-- `string_offset` gives the place of the name in the pool that holds it, and moves no cursor. -/
theorem stringOffset_spec {pool : List Bytes} {name : Bytes} (h : HoldsPool s pool)
    (hname : 0 ∉ name) (hcap : (poolBytes (addName pool name)).length ≤ gStringsCapacity) :
    (stringOffset s name).1 = some (nameOffset (addName pool name) name) ∧
      HoldsPool (stringOffset s name).2 (addName pool name) ∧
      ∃ strings size, (stringOffset s name).2 =
        { s with gStrings := strings, gStringsSize := size } := by
  have hle : (poolBytes pool).length ≤ gStringsCapacity := by
    refine Nat.le_trans ?_ hcap
    rw [addName]
    split
    · exact Nat.le_refl _
    · rw [poolBytes_append, List.length_append]
      exact Nat.le_add_right _ _
  have hsize : s.gStringsSize = 0 + (poolBytes pool).length := by rw [h.size, Nat.zero_add]
  have hfuel : pool.length ≤ s.gStringsSize := by
    rw [h.size]
    exact length_le_poolBytes pool
  have hscan := stringScan_spec h.strings hname hsize h.bytes hle hfuel
  rw [stringOffset, hscan]
  by_cases hmem : name ∈ pool
  · rw [if_pos hmem, addName, if_pos hmem, Nat.zero_add]
    exact ⟨rfl, h, s.gStrings, s.gStringsSize, rfl⟩
  · rw [addName, if_neg hmem] at hcap ⊢
    have hroom : ¬ gStringsCapacity < s.gStringsSize + (name.length + 1) := by
      rw [poolBytes_append, List.length_append, List.length_append, List.length_singleton] at hcap
      rw [h.size]
      exact Nat.not_lt.mpr hcap
    simp only [if_neg hmem, if_neg hroom]
    refine ⟨?_, ⟨?_, ?_, ?_⟩, _, _, rfl⟩
    · rw [nameOffset_new hmem, h.size]
    · rw [poolBytes_append, List.length_append, List.length_append, List.length_singleton, h.size]
    · rw [poolBytes_append, List.length_append, readBytes_add,
        readBytes_apart (.inl (by rw [h.size, Nat.zero_add])), h.bytes, Nat.zero_add, ← h.size,
        readBytes_writeBytes]
    · intro n hn
      rcases List.mem_append.mp hn with hn | hn
      · exact h.strings n hn
      · rw [List.mem_singleton.mp hn]
        exact hname

/-! ## The pool of a run -/

theorem namePool_append (es es' : List Event) :
    namePool (es ++ es') = (es'.filterMap propName).foldl addName (namePool es) := by
  rw [namePool, List.filterMap_append, List.foldl_append, namePool]

theorem foldl_addName (names pool : List Bytes) :
    ∃ more, names.foldl addName pool = pool ++ more := by
  induction names generalizing pool with
  | nil => exact ⟨[], (List.append_nil pool).symm⟩
  | cons name names ih =>
    obtain ⟨more, hmore⟩ := ih (addName pool name)
    rw [List.foldl_cons, hmore, addName]
    split
    · exact ⟨more, rfl⟩
    · exact ⟨[name] ++ more, List.append_assoc _ _ _⟩

/-- Later events only add names at the end. -/
theorem namePool_grows (es es' : List Event) : ∃ more, namePool (es ++ es') = namePool es ++ more := by
  rw [namePool_append]
  exact foldl_addName _ _

theorem mem_foldl_addName {name : Bytes} {names : List Bytes} (pool : List Bytes)
    (h : name ∈ names) : name ∈ names.foldl addName pool := by
  induction names generalizing pool with
  | nil => cases h
  | cons first names ih =>
    rcases List.mem_cons.mp h with rfl | h
    · obtain ⟨more, hmore⟩ := foldl_addName names (addName pool name)
      rw [List.foldl_cons, hmore, List.mem_append, addName]
      refine .inl ?_
      split
      · assumption
      · exact List.mem_append_right _ (List.mem_singleton_self _)
    · exact ih _ h

theorem mem_namePool {name value : Bytes} {es : List Event} (h : .prop name value ∈ es) :
    name ∈ namePool es :=
  mem_foldl_addName [] (List.mem_filterMap.mpr ⟨_, h, rfl⟩)

theorem namePool_prop (es : List Event) (name value : Bytes) :
    namePool (es ++ [.prop name value]) = addName (namePool es) name := by
  rw [namePool_append]
  rfl

/-! ## The blob under construction -/

/-- The state after the calls of `es`: what they say is in the structure block. -/
structure Built (dtb : Nat) (off : Bytes → Nat) (es : List Event) (s : DtbState) : Prop where
  base : s.gDtb = dtb
  start : s.gStructStart = dtb + 56
  next : s.gStruct = dtb + 56 + (encode off es).length
  bytes : readBytes s.mem (dtb + 56) (encode off es).length = encode off es
  rsvmap : readBytes s.mem (dtb + 40) 16 = List.replicate 16 0
  pool : HoldsPool s (namePool es)

variable {dtb : Nat} {off : Bytes → Nat} {es : List Event} {e : Event}

theorem HoldsPool.congr {pool : List Bytes} (h : HoldsPool s pool)
    (hstrings : s'.gStrings = s.gStrings) (hsize : s'.gStringsSize = s.gStringsSize) :
    HoldsPool s' pool :=
  ⟨hsize.trans h.size, hstrings ▸ h.bytes, h.strings⟩

theorem Built.aligned (h : Built dtb off es s) (hdtb : dtb % 4 = 0) : s.gStruct % 4 = 0 := by
  have hlen : (encode off es).length % 4 = 0 := length_encode es
  rw [h.next]
  omega

/-- One more event at the cursor, from a state whose pool may have grown. -/
theorem Built.emit (h : Built dtb off es s) {strings : Nat → BitVec 8} {size : Nat}
    (hpool : HoldsPool { s with gStrings := strings, gStringsSize := size }
      (namePool (es ++ [e])))
    (he : Emits { s with gStrings := strings, gStringsSize := size } s' (encodeEvent off e)) :
    Built dtb off (es ++ [e]) s' := by
  have henc : encode off (es ++ [e]) = encode off es ++ encodeEvent off e := by
    rw [encode, List.flatMap_append, List.flatMap_singleton, encode]
  have hbelow : ∀ a n, a + n ≤ s.gStruct → readBytes s'.mem a n = readBytes s.mem a n := he.below
  have hbytes : readBytes s'.mem s.gStruct (encodeEvent off e).length = encodeEvent off e := he.bytes
  refine ⟨he.dtb.trans h.base, he.start.trans h.start, ?_, ?_, ?_, hpool.congr he.strings he.size⟩
  · rw [henc, List.length_append, he.next]
    simp only [h.next, Nat.add_assoc]
  · rw [henc, List.length_append, readBytes_add, hbelow _ _ (Nat.le_of_eq h.next.symm), h.bytes,
      ← h.next, hbytes]
  · rw [hbelow _ _ (by rw [h.next]; omega), h.rsvmap]

/-- `prop_raw` finds the offset that the name has in the whole pool. -/
theorem built_prop (h : Built dtb off es s) (hdtb : dtb % 4 = 0) (name : CStr) (data : Bytes)
    (hcap : (poolBytes (namePool (es ++ [.prop name.1 data]))).length ≤ gStringsCapacity)
    (hoff : nameOffset (namePool (es ++ [.prop name.1 data])) name.1 = off name.1) :
    (stringOffset s name.1).1 = some (off name.1) ∧
      Built dtb off (es ++ [.prop name.1 data]) (propRaw s name data) := by
  rw [namePool_prop] at hcap hoff
  obtain ⟨hsome, hpool, strings, size, hs'⟩ := stringOffset_spec h.pool name.2 hcap
  rw [hoff] at hsome
  refine ⟨hsome, ?_⟩
  have hpair : stringOffset s name.1 =
      (some (off name.1), { s with gStrings := strings, gStringsSize := size }) :=
    Prod.ext hsome hs'
  rw [hs', ← namePool_prop es name.1 data] at hpool
  simp only [propRaw, hpair]
  have haligned : ({ s with gStrings := strings, gStringsSize := size } : DtbState).gStruct % 4 =
      0 := h.aligned hdtb
  exact h.emit hpool (emits_prop haligned off name.1 data)

theorem built_call (h : Built dtb off es s) (hdtb : dtb % 4 = 0) (c : DtbCall)
    (hcap : (poolBytes (namePool (es ++ [c.event]))).length ≤ gStringsCapacity)
    (hoff : ∀ name ∈ namePool (es ++ [c.event]),
      nameOffset (namePool (es ++ [c.event])) name = off name) :
    Built dtb off (es ++ [c.event]) (s.call c) := by
  have hprop : ∀ (name : CStr) (data : Bytes), c.event = .prop name.1 data →
      Built dtb off (es ++ [.prop name.1 data]) (propRaw s name data) := by
    intro name data hc
    rw [hc] at hcap hoff
    exact (built_prop h hdtb name data hcap
      (hoff _ (mem_namePool (List.mem_append_right _ (List.mem_singleton_self _))))).2
  cases c with
  | beginNode name =>
    have hpool : HoldsPool s (namePool (es ++ [.beginNode name.1])) := by
      rw [namePool_append]
      exact h.pool
    exact h.emit hpool (emits_beginNode (h.aligned hdtb) off name)
  | endNode =>
    have hpool : HoldsPool s (namePool (es ++ [.endNode])) := by
      rw [namePool_append]
      exact h.pool
    exact h.emit hpool (emits_be32 s fdtEndNode)
  | propRaw name data => exact hprop name data rfl
  | propString name value => exact hprop name (value.1 ++ [0]) rfl
  | propU32 name value => exact hprop name (be32 value) rfl
  | propU64 name value => exact hprop name (be64 value) rfl

/-! ## A whole run -/

/-- The place of a name in the finished blob. -/
def finalOffset (calls : List DtbCall) : Bytes → Nat := nameOffset (namePool (events calls))

section

variable {mem : Nat → BitVec 8} {calls pre post : List DtbCall}

theorem events_append (pre post : List DtbCall) : events (pre ++ post) = events pre ++ events post :=
  List.map_append

/-- Before the last call the pool is a part of the final one. -/
theorem pool_part (h : calls = pre ++ post) :
    (poolBytes (namePool (events pre))).length ≤ (poolBytes (namePool (events calls))).length ∧
      ∀ name ∈ namePool (events pre),
        nameOffset (namePool (events pre)) name = finalOffset calls name := by
  obtain ⟨more, hmore⟩ := namePool_grows (events pre) (events post)
  rw [finalOffset, h, events_append, hmore]
  refine ⟨?_, fun name hname => (nameOffset_append hname).symm⟩
  rw [poolBytes, poolBytes, List.flatMap_append, List.length_append]
  exact Nat.le_add_right _ _

theorem dtbRun_append (pre post : List DtbCall) :
    dtbRun mem dtb (pre ++ post) = post.foldl DtbState.call (dtbRun mem dtb pre) :=
  List.foldl_append

theorem built_start : Built dtb off [] (dtbStart mem dtb) where
  base := rfl
  start := rfl
  next := rfl
  bytes := rfl
  rsvmap := by
    refine List.ext_getElem (by rw [length_readBytes, List.length_replicate]) fun i hi hi' => ?_
    rw [length_readBytes] at hi
    simp only [readBytes, dtbStart, List.getElem_map, List.getElem_range, List.getElem_replicate,
      writeBytes, List.length_replicate, guestDtbSize]
    rw [if_pos (by omega), List.getD_replicate _ (by omega)]
  pool := ⟨rfl, rfl, fun name h => absurd h List.not_mem_nil⟩

/-- After any part of the calls. -/
theorem built_run (mem : Nat → BitVec 8) (hdtb : dtb % 4 = 0) (hfit : FitsBuffers (events calls)) (h : calls = pre ++ post) :
    Built dtb (finalOffset calls) (events pre) (dtbRun mem dtb pre) := by
  induction pre using List.reverseRecOn generalizing post with
  | nil => exact built_start
  | append_singleton pre c ih =>
    have hsplit : calls = pre ++ c :: post := by
      rw [h, List.append_assoc]
      rfl
    have hbuilt := ih hsplit
    obtain ⟨hlen, hoff⟩ := pool_part h
    rw [events_append] at hlen hoff ⊢
    rw [dtbRun_append]
    exact built_call hbuilt hdtb c (Nat.le_trans hlen hfit.1) hoff

end

/-! ## The finished blob -/

/-- Where the strings block starts: after the end token, rounded up to 8. -/
def stringsOffset (es : List Event) : Nat := (56 + (es.map eventSize).sum + 4 + 7) / 8 * 8

/-- The words of the header. -/
def headerWords (es : List Event) : List (BitVec 32) :=
  [fdtMagic, BitVec.ofNat 32 (stringsOffset es + (poolBytes (namePool es)).length), 56,
    BitVec.ofNat 32 (stringsOffset es), 40, 17, 16, 0,
    BitVec.ofNat 32 (poolBytes (namePool es)).length,
    BitVec.ofNat 32 ((es.map eventSize).sum + 4)]

/-- The parts of a blob in memory. -/
structure Finished (f : Nat → BitVec 8) (dtb : Nat) (off : Bytes → Nat) (es : List Event) :
    Prop where
  header : readBytes f dtb 40 = (headerWords es).flatMap be32
  rsvmap : readBytes f (dtb + 40) 16 = List.replicate 16 0
  struct : readBytes f (dtb + 56) ((es.map eventSize).sum + 4) = encode off es ++ be32 fdtEnd
  strings : readBytes f (dtb + stringsOffset es) (poolBytes (namePool es)).length =
    poolBytes (namePool es)

theorem finished_of_built (h : Built dtb off es s) : Finished (dtbFinish s).mem dtb off es := by
  have hemit := emits_be32 s fdtEnd
  have hlen := length_encode_eq off es
  have hnext : (emitBe32 s fdtEnd).gStruct = dtb + 56 + (es.map eventSize).sum + 4 := by
    rw [hemit.next, h.next, hlen, length_be32]
  have hbase : (emitBe32 s fdtEnd).gDtb = dtb := hemit.dtb.trans h.base
  have hcount : (emitBe32 s fdtEnd).gStringsSize = (poolBytes (namePool es)).length := by
    rw [hemit.size, h.pool.size]
  have hoffset : ((emitBe32 s fdtEnd).gStruct - dtb + 7) / 8 * 8 = stringsOffset es := by
    rw [hnext, stringsOffset,
      show dtb + 56 + (es.map eventSize).sum + 4 - dtb = 56 + (es.map eventSize).sum + 4 by omega]
  have hsize : (emitBe32 s fdtEnd).gStruct - (emitBe32 s fdtEnd).gStructStart =
      (es.map eventSize).sum + 4 := by
    rw [hnext, hemit.start, h.start]
    omega
  have hpool : readBytes (emitBe32 s fdtEnd).gStrings 0 (poolBytes (namePool es)).length =
      poolBytes (namePool es) := by
    rw [hemit.strings, h.pool.bytes]
  have hmem : (dtbFinish s).mem = writeBytes (writeBytes (emitBe32 s fdtEnd).mem
      (dtb + stringsOffset es) (poolBytes (namePool es))) dtb ((headerWords es).flatMap be32) := by
    simp only [dtbFinish, hbase, hcount, hoffset, hsize, hpool]
    rfl
  have hheader : ((headerWords es).flatMap be32).length = 40 := rfl
  have hend : 56 + (es.map eventSize).sum + 4 ≤ stringsOffset es := by
    rw [stringsOffset]
    omega
  -- between the header and the strings the finish only adds the end token
  have hmid : ∀ a n, dtb + 40 ≤ a → a + n ≤ dtb + stringsOffset es →
      readBytes (dtbFinish s).mem a n = readBytes (emitBe32 s fdtEnd).mem a n := by
    intro a n hlo hhi
    rw [hmem, readBytes_apart (.inr (by rw [hheader]; exact hlo)), readBytes_apart (.inl hhi)]
  refine ⟨?_, ?_, ?_, ?_⟩
  · rw [hmem, ← hheader, readBytes_writeBytes]
  · rw [hmid _ _ (Nat.le_refl _) (by omega), hemit.below _ _ (by rw [h.next]; omega), h.rsvmap]
  · rw [hmid _ _ (by omega) (by omega), readBytes_add,
      hemit.below _ _ (by rw [h.next, hlen]), ← hlen, h.bytes, ← h.next]
    exact congrArg _ hemit.bytes
  · rw [hmem, readBytes_apart (.inr (by rw [hheader]; omega)), readBytes_writeBytes]

/-! ## Reading the blob -/

section

variable {f : Nat → BitVec 8} {calls : List DtbCall}

theorem toNat_of_lt {n : Nat} (h : n < 2 ^ 32) : (BitVec.ofNat 32 n).toNat = n := by
  rw [BitVec.toNat_ofNat, Nat.mod_eq_of_lt h]

theorem eventSize_le (h : e ∈ es) : eventSize e ≤ (es.map eventSize).sum :=
  List.single_le_sum (fun _ _ => Nat.zero_le _) _ (List.mem_map_of_mem h)

/-- The names of the calls have no NUL in them. -/
theorem noNul_event (c : DtbCall) (name value : Bytes)
    (h : c.event = .beginNode name ∨ c.event = .prop name value) : 0 ∉ name := by
  cases c with
  | endNode => simp [DtbCall.event] at h
  | beginNode name' =>
    simp only [DtbCall.event, Event.beginNode.injEq, reduceCtorEq, or_false] at h
    exact h ▸ name'.2
  | propRaw name' _ | propString name' _ | propU32 name' _ | propU64 name' _ =>
    simp only [DtbCall.event, Event.prop.injEq, reduceCtorEq, false_or] at h
    exact h.1 ▸ name'.2

/-- What makes an event of the blob readable, by the format and by `find_bootargs`. -/
structure Readable (off : Bytes → Nat) (strings : Bytes) (e : Event) : Prop where
  begins : ∀ name, e = .beginNode name → 0 ∉ name
  prop : ∀ name value, e = .prop name value → 0 ∉ name ∧ value.length < 2 ^ 32 ∧
    off name + name.length + 1 ≤ strings.length ∧ off name < 2 ^ 32 ∧
    ∃ rest, strings.drop (off name) = name ++ 0 :: rest

theorem readable_event (hfit : FitsBuffers (events calls)) (h : e ∈ events calls) :
    Readable (finalOffset calls) (poolBytes (namePool (events calls))) e := by
  obtain ⟨c, -, rfl⟩ := List.mem_map.mp h
  refine ⟨fun name hname => noNul_event c name [] (.inl hname), fun name value hprop => ?_⟩
  have hsize := eventSize_le h
  have hcap := hfit.1
  have htotal := hfit.2
  obtain ⟨rest, hrest⟩ := drop_nameOffset (mem_namePool (hprop ▸ h))
  have hlen := congrArg List.length hrest
  rw [hprop] at hsize
  simp only [eventSize, roundUp4] at hsize
  simp only [List.length_drop, List.length_append, List.length_cons] at hlen
  simp only [gStringsCapacity, guestDtbSize] at hcap htotal
  refine ⟨noNul_event c name value (.inr hprop), by omega, ?_, ?_, rest, hrest⟩
  · rw [finalOffset]
    omega
  · rw [finalOffset]
    omega

theorem Readable.fits {strings : Bytes} (h : Readable off strings e) : Fits off strings e := by
  cases e with
  | beginNode name => exact h.begins name rfl
  | endNode => trivial
  | prop name value =>
    obtain ⟨hname, hvalue, -, hoff, rest, hrest⟩ := h.prop name value rfl
    exact ⟨hvalue, hoff, rest, by rw [hrest, getCString_append hname]⟩

theorem header_word (h : Finished f dtb off es) {i : Nat} (hi : i < 10) :
    readBe32 f (dtb + 4 * i) = (headerWords es)[i] :=
  readBe32_table hi h.header

/-- The format's decoder reads the events back. -/
theorem decode_finished (h : Finished f dtb (finalOffset calls) (events calls))
    (hfit : FitsBuffers (events calls)) : decode f dtb = some (events calls) := by
  have htotal := hfit.2
  have hend : 56 + ((events calls).map eventSize).sum + 4 ≤ stringsOffset (events calls) := by
    rw [stringsOffset]
    omega
  rw [← stringsOffset, guestDtbSize] at htotal
  have hmagic : readBe32 f dtb = fdtMagic := header_word h (i := 0) (by decide)
  have h4 : (readBe32 f (dtb + 4)).toNat = stringsOffset (events calls) +
      (poolBytes (namePool (events calls))).length := by
    rw [show readBe32 f (dtb + 4) = _ from header_word h (i := 1) (by decide)]
    exact toNat_of_lt (by omega)
  have h8 : readBe32 f (dtb + 8) = 56 := header_word h (i := 2) (by decide)
  have h12 : (readBe32 f (dtb + 12)).toNat = stringsOffset (events calls) := by
    rw [show readBe32 f (dtb + 12) = _ from header_word h (i := 3) (by decide)]
    exact toNat_of_lt (by omega)
  have h16 : readBe32 f (dtb + 16) = 40 := header_word h (i := 4) (by decide)
  have h20 : readBe32 f (dtb + 20) = 17 := header_word h (i := 5) (by decide)
  have h24 : readBe32 f (dtb + 24) = 16 := header_word h (i := 6) (by decide)
  have h32 : (readBe32 f (dtb + 32)).toNat = (poolBytes (namePool (events calls))).length := by
    rw [show readBe32 f (dtb + 32) = _ from header_word h (i := 8) (by decide)]
    exact toNat_of_lt (by omega)
  have h36 : (readBe32 f (dtb + 36)).toNat = ((events calls).map eventSize).sum + 4 := by
    rw [show readBe32 f (dtb + 36) = _ from header_word h (i := 9) (by decide)]
    exact toNat_of_lt (by omega)
  have h56 : (56 : BitVec 32).toNat = 56 := rfl
  have h40 : (40 : BitVec 32).toNat = 40 := rfl
  have h17 : (17 : BitVec 32).toNat = 17 := rfl
  have h16' : (16 : BitVec 32).toNat = 16 := rfl
  have hcount : 4 * (events calls).length ≤ (encode (finalOffset calls) (events calls)).length :=
    length_le_encode _
  rw [length_encode_eq] at hcount
  rw [decode, h4, h8, h12, h16, h20, h24, h32, h36, h56, h40, h17, h16', if_pos, h.strings, h.struct]
  · exact decode_struct_encode (by omega) fun e he => (readable_event hfit he).fits
  · exact ⟨hmagic, by decide, by decide, by decide, by decide, by decide, h.rsvmap, by decide,
      by omega, Nat.le_refl _⟩

/-- A property `bootargs` with a value. -/
def isBootargs : Event → Bool
  | .prop name value => name == bootargsName && decide (0 < value.length)
  | _ => false

/-- The address of the first such value, for events laid out from `p` on. -/
def bootargsAddress : List Event → Nat → Option Nat
  | [], _ => none
  | e :: es, p => if isBootargs e then some (p + 12) else bootargsAddress es (p + eventSize e)

/-- A string inside a block of memory. -/
theorem readBytes_string {strings name rest : Bytes} {a o : Nat}
    (h : readBytes f a strings.length = strings) (hdrop : strings.drop o = name ++ 0 :: rest) :
    readBytes f (a + o) (name.length + 1) = name ++ [0] := by
  have hlt : o < strings.length := by
    have hlen := congrArg List.length hdrop
    rw [List.length_drop, List.length_append, List.length_cons] at hlen
    omega
  have hparts : strings = strings.take o ++ (name ++ [0] ++ rest) := by
    rw [List.append_assoc, List.singleton_append, ← hdrop, List.take_append_drop]
  obtain ⟨-, hfrom⟩ := readBytes_split (h.trans hparts)
  have hnul := (readBytes_split hfrom).1
  rw [List.length_take_of_le (Nat.le_of_lt hlt), List.length_append, List.length_singleton] at hnul
  exact hnul

/-- The loop of `find_bootargs` over the events that are left. -/
theorem findBootargsLoop_spec {strings : Bytes} {structEnd stringsBase fuel p : Nat}
    (hp : p % 4 = 0) (hend : structEnd = p + ((es.map eventSize).sum + 4))
    (hbytes : readBytes f p ((es.map eventSize).sum + 4) = encode off es ++ be32 fdtEnd)
    (hstrings : readBytes f stringsBase strings.length = strings)
    (h : ∀ e ∈ es, Readable off strings e) (hfuel : es.length < fuel) :
    findBootargsLoop f structEnd stringsBase strings.length fuel p = bootargsAddress es p := by
  induction es generalizing p fuel with
  | nil =>
    obtain ⟨fuel, rfl⟩ := Nat.exists_eq_succ_of_ne_zero (Nat.ne_of_gt hfuel)
    have htoken : readBe32 f p = fdtEnd := readBe32_eq hbytes
    rw [List.map_nil, List.sum_nil] at hend
    rw [findBootargsLoop, if_neg (by omega), htoken]
    rfl
  | cons e es ih =>
    obtain ⟨fuel, rfl⟩ := Nat.exists_eq_succ_of_ne_zero (Nat.ne_of_gt (Nat.zero_lt_of_lt hfuel))
    rw [List.forall_mem_cons] at h
    rw [List.map_cons, List.sum_cons] at hend hbytes
    rw [encode, List.flatMap_cons, ← encode, List.append_assoc] at hbytes
    obtain ⟨hevent, hrest⟩ := readBytes_split hbytes
    rw [eventSize_eq] at hevent hrest
    have hlen : (encode off es ++ be32 fdtEnd).length = (es.map eventSize).sum + 4 := by
      rw [List.length_append, length_encode_eq, length_be32]
    rw [hlen] at hrest
    have hnext : (p + eventSize e) % 4 = 0 := by
      have he : (encodeEvent off e).length % 4 = 0 := length_encodeEvent e
      rw [eventSize_eq] at he
      omega
    have hloop := ih hnext (by omega) hrest h.2 (Nat.lt_of_succ_lt_succ hfuel)
    rw [findBootargsLoop, if_neg (by omega), bootargsAddress]
    cases e with
    | beginNode name =>
      obtain ⟨htoken, hname⟩ := readBytes_split hevent
      have hnul := (readBytes_split hname).1
      have hstr : readBytes f (p + 4) (name.length + 1) = name ++ [0] := by
        rw [List.length_append, List.length_singleton] at hnul
        exact hnul
      simp only [eventSize, roundUp4] at hend hloop ⊢
      have hstrlen : strnlen f (p + 4) (structEnd - (p + 4)) = name.length :=
        strnlen_eq hstr (h.1.begins name rfl) (by omega)
      have halign : align4 (p + 4 + name.length + 1) = p + (4 + (name.length + 1 + 3) / 4 * 4) := by
        rw [align4]
        omega
      have hno : isBootargs (.beginNode name) = false := rfl
      simp only [readBe32_eq htoken, if_true, hstrlen, halign, hloop, hno, Bool.false_eq_true,
        if_false]
    | endNode =>
      have htoken : readBe32 f p = fdtEndNode := readBe32_eq hevent
      rw [eventSize] at hloop
      simp only [htoken, if_neg (by decide : ¬ fdtEndNode = fdtBeginNode),
        if_neg (by decide : ¬ fdtEndNode = fdtProp), if_neg (by decide : ¬ fdtEndNode = fdtEnd),
        true_or, if_true, hloop, isBootargs, Bool.false_eq_true, if_false, eventSize]
    | prop name value =>
      obtain ⟨hname, hvalue, hin, hoff, rest, hdrop⟩ := h.1.prop name value rfl
      rw [encodeEvent, List.append_assoc, List.append_assoc] at hevent
      obtain ⟨htoken, hevent⟩ := readBytes_split hevent
      obtain ⟨hlen, hevent⟩ := readBytes_split hevent
      obtain ⟨hnameoff, -⟩ := readBytes_split hevent
      have hsizeWord : (readBe32 f (p + 4)).toNat = value.length := by
        have hword : readBe32 f (p + 4) = _ := readBe32_eq hlen
        rw [hword, toNat_of_lt hvalue]
      have hoffWord : (readBe32 f (p + 8)).toNat = off name := by
        have hword : readBe32 f (p + 8) = _ := readBe32_eq hnameoff
        rw [hword, toNat_of_lt hoff]
      have hstr := readBytes_string hstrings hdrop
      have halign : align4 (p + 12 + value.length) = p + eventSize (.prop name value) := by
        simp only [align4, eventSize, roundUp4]
        omega
      have hroom : ¬ structEnd < p + 4 + 8 := by
        simp only [eventSize] at hend
        omega
      have hbootargs : 0 ∉ bootargsName := by decide
      have htest : strEq f (stringsBase + off name) bootargsName = (name == bootargsName) := by
        rw [Bool.eq_iff_iff, strEq_iff hstr hname hbootargs, beq_iff_eq]
      simp only [readBe32_eq htoken, if_neg (by decide : ¬ fdtProp = fdtBeginNode), if_true,
        if_neg hroom, hsizeWord, hoffWord, if_neg (by omega : ¬ strings.length ≤ off name), halign,
        hloop, htest, isBootargs]
      rfl

/-- `find_bootargs` on a finished blob. -/
theorem findBootargs_finished (h : Finished f dtb (finalOffset calls) (events calls))
    (hfit : FitsBuffers (events calls)) (hdtb : dtb % 4 = 0) (hne : dtb ≠ 0) :
    findBootargs f dtb = bootargsAddress (events calls) (dtb + 56) := by
  have htotal := hfit.2
  have hend : 56 + ((events calls).map eventSize).sum + 4 ≤ stringsOffset (events calls) := by
    rw [stringsOffset]
    omega
  rw [← stringsOffset, guestDtbSize] at htotal
  have hmagic : readBe32 f dtb = fdtMagic := header_word h (i := 0) (by decide)
  have h8 : (readBe32 f (dtb + 8)).toNat = 56 := by
    rw [show readBe32 f (dtb + 8) = _ from header_word h (i := 2) (by decide)]
    rfl
  have h12 : (readBe32 f (dtb + 12)).toNat = stringsOffset (events calls) := by
    rw [show readBe32 f (dtb + 12) = _ from header_word h (i := 3) (by decide)]
    exact toNat_of_lt (by omega)
  have h32 : (readBe32 f (dtb + 32)).toNat = (poolBytes (namePool (events calls))).length := by
    rw [show readBe32 f (dtb + 32) = _ from header_word h (i := 8) (by decide)]
    exact toNat_of_lt (by omega)
  have h36 : (readBe32 f (dtb + 36)).toNat = ((events calls).map eventSize).sum + 4 := by
    rw [show readBe32 f (dtb + 36) = _ from header_word h (i := 9) (by decide)]
    exact toNat_of_lt (by omega)
  have hcount : 4 * (events calls).length ≤ (encode (finalOffset calls) (events calls)).length :=
    length_le_encode _
  rw [length_encode_eq] at hcount
  have hguard : ¬ (dtb = 0 ∨ readBe32 f dtb ≠ fdtMagic) := by
    rw [hmagic]
    exact fun hor => hor.elim hne fun hself => hself rfl
  rw [findBootargs, if_neg hguard]
  simp only [h8, h12, h32, h36]
  exact findBootargsLoop_spec (by omega) rfl h.struct h.strings
    (fun e he => readable_event hfit he) (by omega)

/-- The first property `bootargs` with a value decides. -/
theorem bootargsAddress_append {es es' : List Event} (h : ∀ e ∈ es, isBootargs e = false) (p : Nat) :
    bootargsAddress (es ++ es') p = bootargsAddress es' (p + (es.map eventSize).sum) := by
  induction es generalizing p with
  | nil => rfl
  | cons e es ih =>
    rw [List.forall_mem_cons] at h
    rw [List.cons_append, bootargsAddress, h.1, if_neg Bool.false_ne_true, ih h.2, List.map_cons,
      List.sum_cons, Nat.add_assoc]

end

/-! ## The round trip -/

/-- What a reader of the finished blob finds. -/
structure DtbRoundTrip (mem : Nat → BitVec 8) (dtb : Nat) (calls : List DtbCall) : Prop where
  /-- the tree that the calls describe, with every property value -/
  tree : ∃ tree, decodeTree (guestDtb mem dtb calls).mem dtb = some tree ∧
    itemsEvents tree = events calls
  /-- each name has one offset, which `string_offset` gives for each of its properties, and where
  it stays -/
  names : ∃ off : Bytes → Nat,
    (∀ pre c post name value, calls = pre ++ c :: post → c.event = .prop name value →
      (stringOffset (dtbRun mem dtb pre) name).1 = some (off name)) ∧
    ∀ pre post name value, calls = pre ++ post → .prop name value ∈ events pre →
      readBytes (dtbRun mem dtb pre).gStrings (off name) (name.length + 1) = name ++ [0]
  /-- the first `bootargs` that has a value, where the encoder has put it -/
  bootargs : ∀ pre c post value, calls = pre ++ c :: post → c.event = .prop bootargsName value →
    value ≠ [] → (∀ c' ∈ pre, isBootargs c'.event = false) →
    findBootargs (guestDtb mem dtb calls).mem dtb = some ((dtbRun mem dtb pre).gStruct + 12) ∧
      readBytes (guestDtb mem dtb calls).mem ((dtbRun mem dtb pre).gStruct + 12) value.length = value
  no_bootargs : (∀ c ∈ calls, isBootargs c.event = false) →
    findBootargs (guestDtb mem dtb calls).mem dtb = none

section

variable {mem : Nat → BitVec 8} {calls : List DtbCall}

theorem finished (mem : Nat → BitVec 8) (hdtb : dtb % 4 = 0) (hfit : FitsBuffers (events calls)) :
    Finished (guestDtb mem dtb calls).mem dtb (finalOffset calls) (events calls) :=
  finished_of_built (built_run mem hdtb hfit (List.append_nil calls).symm)

theorem names_stay (hdtb : dtb % 4 = 0) (hfit : FitsBuffers (events calls)) :
    (∀ pre c post name value, calls = pre ++ c :: post → c.event = .prop name value →
      (stringOffset (dtbRun mem dtb pre) name).1 = some (finalOffset calls name)) ∧
    ∀ pre post name value, calls = pre ++ post → .prop name value ∈ events pre →
      readBytes (dtbRun mem dtb pre).gStrings (finalOffset calls name) (name.length + 1) =
        name ++ [0] := by
  refine ⟨fun pre c post name value h hc => ?_, fun pre post name value h hmem => ?_⟩
  · have hnext : calls = (pre ++ [c]) ++ post := by
      rw [h, List.append_assoc]
      rfl
    obtain ⟨hlen, hoff⟩ := pool_part hnext
    have hevents : events (pre ++ [c]) = events pre ++ [.prop name value] := by
      rw [events_append, ← hc]
      rfl
    rw [hevents] at hlen hoff
    have hself := hoff name (mem_namePool (List.mem_append_right _ (List.mem_singleton_self _)))
    rw [namePool_prop] at hlen hself
    rw [← hself]
    exact (stringOffset_spec (built_run mem hdtb hfit h).pool (noNul_event c name value (.inr hc))
      (Nat.le_trans hlen hfit.1)).1
  · have hpool := mem_namePool hmem
    obtain ⟨rest, hdrop⟩ := drop_nameOffset hpool
    have hread := readBytes_string (built_run mem hdtb hfit h).pool.bytes hdrop
    rw [(pool_part h).2 name hpool, Nat.zero_add] at hread
    exact hread

/-- The value of a property is where the cursor was, after token, length and name. -/
theorem value_stays (mem : Nat → BitVec 8) (hdtb : dtb % 4 = 0) (hfit : FitsBuffers (events calls))
    {pre post : List DtbCall} {c : DtbCall} {name value : Bytes} (h : calls = pre ++ c :: post)
    (hc : c.event = .prop name value) :
    (dtbRun mem dtb pre).gStruct = dtb + 56 + ((events pre).map eventSize).sum ∧
      readBytes (guestDtb mem dtb calls).mem ((dtbRun mem dtb pre).gStruct + 12) value.length =
        value := by
  have hbuilt := built_run mem hdtb hfit h
  have hstruct := (finished mem hdtb hfit).struct
  have henc : encode (finalOffset calls) (events calls) ++ be32 fdtEnd =
      encode (finalOffset calls) (events pre) ++ (be32 fdtProp ++
        be32 (BitVec.ofNat 32 value.length) ++ be32 (BitVec.ofNat 32 (finalOffset calls name)) ++
        (value ++ (List.replicate (padding value.length) 0 ++
          encode (finalOffset calls) (events post) ++ be32 fdtEnd))) := by
    have hevents : events calls = events pre ++ .prop name value :: events post := by
      rw [h, events_append, ← hc]
      rfl
    simp only [encode, hevents, List.flatMap_append, List.flatMap_cons, encodeEvent, padded,
      List.append_assoc]
  have hnext := hbuilt.next
  rw [henc] at hstruct
  obtain ⟨-, hrest⟩ := readBytes_split hstruct
  obtain ⟨-, hrest⟩ := readBytes_split hrest
  have hvalue := (readBytes_split hrest).1
  rw [← hnext] at hvalue
  exact ⟨by rw [hnext, length_encode_eq], hvalue⟩

end

/-- The guest's device tree reads back, for every sequence of balanced calls that fits. -/
theorem guest_dtb_roundTrip (mem : Nat → BitVec 8) (dtb : Nat) (calls : List DtbCall)
    (hdtb : dtb % 4 = 0) (hne : dtb ≠ 0) (hfit : FitsBuffers (events calls))
    (hbalanced : balanced 0 (events calls) = true) : DtbRoundTrip mem dtb calls where
  tree := by
    have hopen : balanced ([] : Open).length (events calls) = true := hbalanced
    obtain ⟨tree, hparse, htree⟩ := parseItems_balanced [] hopen
    refine ⟨tree, ?_, htree⟩
    rw [decodeTree, decode_finished (finished mem hdtb hfit) hfit, Option.bind_some, hparse]
  names := ⟨finalOffset calls, names_stay hdtb hfit⟩
  bootargs := by
    intro pre c post value h hc hvalue hfirst
    obtain ⟨hnext, hread⟩ := value_stays mem hdtb hfit h hc
    refine ⟨?_, hread⟩
    have hboot : isBootargs c.event = true := by
      rw [hc, isBootargs, beq_self_eq_true, Bool.true_and, decide_eq_true_eq]
      exact List.length_pos_of_ne_nil hvalue
    have hpre : ∀ e ∈ events pre, isBootargs e = false := by
      intro e he
      obtain ⟨c', hc', rfl⟩ := List.mem_map.mp he
      exact hfirst c' hc'
    rw [findBootargs_finished (finished mem hdtb hfit) hfit hdtb hne, h, events_append,
      bootargsAddress_append hpre, hnext]
    exact if_pos hboot
  no_bootargs := by
    intro hnone
    have hall : ∀ e ∈ events calls, isBootargs e = false := by
      intro e he
      obtain ⟨c, hc, rfl⟩ := List.mem_map.mp he
      exact hnone c hc
    have haddress : bootargsAddress (events calls ++ []) (dtb + 56) = none :=
      bootargsAddress_append hall (dtb + 56)
    rw [List.append_nil] at haddress
    rw [findBootargs_finished (finished mem hdtb hfit) hfit hdtb hne, haddress]

theorem not_mem_empty : (0 : BitVec 8) ∉ ([] : Bytes) := List.not_mem_nil

theorem not_mem_bootargsName : (0 : BitVec 8) ∉ bootargsName := by
  decide

/-- A root node with two properties `bootargs`, the first of them empty. -/
def twoBootargs : List DtbCall :=
  [.beginNode ⟨[], not_mem_empty⟩, .propRaw ⟨bootargsName, not_mem_bootargsName⟩ [],
    .propU32 ⟨bootargsName, not_mem_bootargsName⟩ 7, .endNode]

theorem guest_dtb_roundTrip_two : DtbRoundTrip (fun _ => 0) 0x90000000 twoBootargs :=
  guest_dtb_roundTrip (fun _ => 0) 0x90000000 twoBootargs (by decide) (by decide)
    ⟨by decide, by decide⟩ (by decide)

/-- `find_bootargs` passes over a property `bootargs` without a value. -/
theorem empty_bootargs_skipped :
    ¬ ∀ (mem : Nat → BitVec 8) (dtb : Nat) (calls pre post : List DtbCall) (c : DtbCall)
      (value : Bytes), dtb % 4 = 0 → dtb ≠ 0 → FitsBuffers (events calls) →
      balanced 0 (events calls) = true → calls = pre ++ c :: post →
      c.event = .prop bootargsName value →
      (∀ c' ∈ pre, ∀ value', c'.event ≠ .prop bootargsName value') →
      findBootargs (guestDtb mem dtb calls).mem dtb = some ((dtbRun mem dtb pre).gStruct + 12) := by
  intro h
  have hfit : FitsBuffers (events twoBootargs) := ⟨by decide, by decide⟩
  have hfound := h (fun _ => 0) 0x90000000 twoBootargs [.beginNode ⟨[], not_mem_empty⟩]
    [.propU32 ⟨bootargsName, not_mem_bootargsName⟩ 7, .endNode]
    (.propRaw ⟨bootargsName, not_mem_bootargsName⟩ []) [] (by decide) (by decide) hfit (by decide)
    rfl rfl (by simp [DtbCall.event])
  rw [findBootargs_finished (finished _ (by decide) hfit) hfit (by decide) (by decide)] at hfound
  revert hfound
  decide +kernel

end HyperCore.Riscv64
