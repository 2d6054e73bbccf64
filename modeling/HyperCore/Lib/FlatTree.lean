import Mathlib

/-!
# Flattened device trees

The format: a header, a structure block of 32-bit big-endian tokens, and a strings block that
holds the property names. `encode` lays out a list of events (a node begins, a property, a node
ends) with the names at given offsets, `decodeStruct` reads a structure block, and `decode` a whole
blob by its header. `decode_struct_encode` is the round trip of the structure block.

A tree is the list of its events when these are balanced: `parseItems` builds it, `itemsEvents`
flattens it.
-/

namespace FlatTree

abbrev Bytes := List (BitVec 8)

/-! ## Numbers, strings and padding -/

/-- A 32-bit number, the most significant byte first. -/
def be32 (v : BitVec 32) : Bytes :=
  [v.extractLsb' 24 8, v.extractLsb' 16 8, v.extractLsb' 8 8, v.extractLsb' 0 8]

def getBe32 : Bytes → Option (BitVec 32 × Bytes)
  | a :: b :: c :: d :: rest => some (a ++ b ++ c ++ d, rest)
  | _ => none

@[simp] theorem length_be32 (v : BitVec 32) : (be32 v).length = 4 := rfl

@[simp] theorem getBe32_be32 (v : BitVec 32) (rest : Bytes) :
    getBe32 (be32 v ++ rest) = some (v, rest) := by
  have hv : v.extractLsb' 24 8 ++ v.extractLsb' 16 8 ++ v.extractLsb' 8 8 ++ v.extractLsb' 0 8 =
      v := by
    refine BitVec.eq_of_getLsbD_eq fun i hi => ?_
    simp only [BitVec.getLsbD_append, BitVec.getLsbD_extractLsb']
    split
    · simp_all
    · split
      · rw [decide_eq_true (by omega), Bool.true_and, show 8 + (i - 8) = i by omega]
      · split
        · rw [decide_eq_true (by omega), Bool.true_and, show 16 + (i - 8 - 8) = i by omega]
        · rw [decide_eq_true (by omega), Bool.true_and, show 24 + (i - 8 - 8 - 8) = i by omega]
  exact congrArg (fun w => some (w, rest)) hv

/-- The bytes before the first NUL, and those after it. -/
def getCString : Bytes → Option (Bytes × Bytes)
  | [] => none
  | b :: bs => if b = 0 then some ([], bs) else (getCString bs).map fun r => (b :: r.1, r.2)

@[simp] theorem getCString_append {name : Bytes} (h : 0 ∉ name) (rest : Bytes) :
    getCString (name ++ 0 :: rest) = some (name, rest) := by
  induction name with
  | nil => rw [List.nil_append, getCString, if_pos rfl]
  | cons b bs ih =>
    rw [List.mem_cons, not_or] at h
    rw [List.cons_append, getCString, if_neg (Ne.symm h.1), ih h.2, Option.map_some]

/-- The bytes missing to the next multiple of 4. -/
def padding (n : Nat) : Nat := (4 - n % 4) % 4

def padded (bs : Bytes) : Bytes := bs ++ List.replicate (padding bs.length) 0

theorem length_padded (bs : Bytes) : (padded bs).length = bs.length + padding bs.length := by
  rw [padded, List.length_append, List.length_replicate]

theorem padding_spec (n : Nat) : (n + padding n) % 4 = 0 ∧ padding n < 4 := by
  simp only [padding]
  omega

/-! ## Events -/

/-- What a structure block says, in order. -/
inductive Event
  | beginNode (name : Bytes)
  | endNode
  | prop (name value : Bytes)
deriving DecidableEq

def fdtBeginNode : BitVec 32 := 1
def fdtEndNode : BitVec 32 := 2
def fdtProp : BitVec 32 := 3
def fdtNop : BitVec 32 := 4
def fdtEnd : BitVec 32 := 9

variable {off : Bytes → Nat}

/-- An event with its property name at `off name` of the strings block. -/
def encodeEvent (off : Bytes → Nat) : Event → Bytes
  | .beginNode name => be32 fdtBeginNode ++ padded (name ++ [0])
  | .endNode => be32 fdtEndNode
  | .prop name value =>
    be32 fdtProp ++ be32 (BitVec.ofNat 32 value.length) ++ be32 (BitVec.ofNat 32 (off name)) ++
      padded value

def encode (off : Bytes → Nat) (es : List Event) : Bytes := es.flatMap (encodeEvent off)

/-- Reading a structure block, which ends with its end token. -/
def decodeStruct (strings : Bytes) : (fuel : Nat) → Bytes → Option (List Event)
  | 0, _ => none
  | fuel + 1, bs => do
    let (token, rest) ← getBe32 bs
    if token = fdtBeginNode then
      let (name, rest) ← getCString rest
      let es ← decodeStruct strings fuel (rest.drop (padding (name.length + 1)))
      some (.beginNode name :: es)
    else if token = fdtEndNode then
      let es ← decodeStruct strings fuel rest
      some (.endNode :: es)
    else if token = fdtProp then
      let (len, rest) ← getBe32 rest
      let (nameoff, rest) ← getBe32 rest
      let (name, _) ← getCString (strings.drop nameoff.toNat)
      if len.toNat ≤ rest.length then
        let es ← decodeStruct strings fuel (rest.drop (len.toNat + padding len.toNat))
        some (.prop name (rest.take len.toNat) :: es)
      else none
    else if token = fdtNop then decodeStruct strings fuel rest
    else if token = fdtEnd then if rest = [] then some [] else none
    else none

/-- The event can be written: names are strings, numbers have 32 bits, and the name is where
`off` says. -/
def Fits (off : Bytes → Nat) (strings : Bytes) : Event → Prop
  | .beginNode name => 0 ∉ name
  | .endNode => True
  | .prop name value => value.length < 2 ^ 32 ∧ off name < 2 ^ 32 ∧
      ∃ rest, getCString (strings.drop (off name)) = some (name, rest)

theorem drop_padded (bs rest : Bytes) :
    (bs ++ List.replicate (padding bs.length) 0 ++ rest).drop (bs.length + padding bs.length) =
      rest := by
  rw [← length_padded, ← padded, List.drop_left]

/-- The structure block of events reads back as these events. -/
theorem decode_struct_encode {strings : Bytes} {es : List Event} {fuel : Nat}
    (hfuel : es.length < fuel) (h : ∀ e ∈ es, Fits off strings e) :
    decodeStruct strings fuel (encode off es ++ be32 fdtEnd) = some es := by
  induction es generalizing fuel with
  | nil =>
    obtain ⟨fuel, rfl⟩ := Nat.exists_eq_succ_of_ne_zero (Nat.ne_of_gt hfuel)
    rw [encode, List.flatMap_nil, List.nil_append, ← List.append_nil (be32 fdtEnd), decodeStruct,
      getBe32_be32]
    rfl
  | cons e es ih =>
    obtain ⟨fuel, rfl⟩ := Nat.exists_eq_succ_of_ne_zero (Nat.ne_of_gt (Nat.zero_lt_of_lt hfuel))
    rw [List.forall_mem_cons] at h
    have hrest := ih (Nat.lt_of_succ_lt_succ hfuel) h.2
    rw [encode, List.flatMap_cons, ← encode]
    cases e with
    | beginNode name =>
      have hdrop : (List.replicate (padding (name.length + 1)) 0 ++
          (encode off es ++ be32 fdtEnd)).drop (padding (name.length + 1)) =
          encode off es ++ be32 fdtEnd := by
        rw [List.drop_append_of_le_length (by rw [List.length_replicate]),
          List.drop_of_length_le (by rw [List.length_replicate]), List.nil_append]
      simp only [encodeEvent, padded, List.append_assoc, decodeStruct, getBe32_be32,
        List.cons_append, List.nil_append, getCString_append h.1, Option.bind_eq_bind,
        Option.bind_some, if_true, List.length_append, List.length_singleton, hdrop, hrest]
    | endNode =>
      have hne : fdtEndNode ≠ fdtBeginNode := by decide
      simp only [encodeEvent, List.append_assoc, decodeStruct, getBe32_be32, Option.bind_eq_bind,
        Option.bind_some, if_neg hne, if_true, hrest]
    | prop name value =>
      obtain ⟨hlen, hoff, strs, hname⟩ := h.1
      have hne : fdtProp ≠ fdtBeginNode := by decide
      have hne' : fdtProp ≠ fdtEndNode := by decide
      have hlen' : (BitVec.ofNat 32 value.length).toNat = value.length := by
        rw [BitVec.toNat_ofNat, Nat.mod_eq_of_lt hlen]
      have hoff' : (BitVec.ofNat 32 (off name)).toNat = off name := by
        rw [BitVec.toNat_ofNat, Nat.mod_eq_of_lt hoff]
      have hdrop := drop_padded value (encode off es ++ be32 fdtEnd)
      rw [List.append_assoc] at hdrop
      simp only [encodeEvent, padded, List.append_assoc, decodeStruct, getBe32_be32,
        Option.bind_eq_bind, Option.bind_some, if_neg hne, if_neg hne', if_true, hlen', hoff',
        hname, hdrop, hrest]
      rw [if_pos (by rw [List.length_append]; exact Nat.le_add_right _ _), List.take_left']
      rfl

theorem length_encodeEvent (e : Event) : (encodeEvent off e).length % 4 = 0 := by
  cases e with
  | beginNode name =>
    have hpad := (padding_spec (name ++ [0]).length).1
    rw [encodeEvent, List.length_append, length_padded, length_be32]
    omega
  | endNode => rw [encodeEvent, length_be32]
  | prop name value =>
    have hpad := (padding_spec value.length).1
    simp only [encodeEvent, List.length_append, length_padded, length_be32]
    omega

theorem length_encode (es : List Event) : (encode off es).length % 4 = 0 := by
  induction es with
  | nil => rfl
  | cons e es ih =>
    have he : (encodeEvent off e).length % 4 = 0 := length_encodeEvent e
    rw [encode, List.flatMap_cons, ← encode, List.length_append]
    omega

/-- Every event takes a token at least. -/
theorem length_le_encode (es : List Event) : 4 * es.length ≤ (encode off es).length := by
  induction es with
  | nil => exact Nat.le_refl _
  | cons e es ih =>
    have he : 4 ≤ (encodeEvent off e).length := by
      cases e <;> simp only [encodeEvent, List.length_append, length_be32] <;> omega
    rw [encode, List.flatMap_cons, ← encode, List.length_append, List.length_cons]
    omega

/-! ## Trees -/

/-- What a node holds, in order: properties and further nodes. -/
inductive Item
  | prop (name value : Bytes)
  | node (name : Bytes) (items : List Item)

mutual

def itemEvents : Item → List Event
  | .prop name value => [.prop name value]
  | .node name items => .beginNode name :: itemsEvents items ++ [.endNode]

/-- The events of a tree. -/
def itemsEvents : List Item → List Event
  | [] => []
  | item :: items => itemEvents item ++ itemsEvents items

end

/-- The nodes that are open, the innermost first, each with what stood before it. -/
abbrev Open := List (Bytes × List Item)

/-- Builds the tree of a list of events; `items` is what the innermost node holds so far. -/
def parseItems : List Event → Open → List Item → Option (List Item)
  | [], [], items => some items
  | [], _ :: _, _ => none
  | .beginNode name :: es, stack, items => parseItems es ((name, items) :: stack) []
  | .endNode :: es, (name, before) :: stack, items =>
    parseItems es stack (before ++ [.node name items])
  | .endNode :: _, [], _ => none
  | .prop name value :: es, stack, items => parseItems es stack (items ++ [.prop name value])

/-- Every node that ends has begun, and every node that begins ends. -/
def balanced : (depth : Nat) → List Event → Bool
  | depth, [] => depth == 0
  | depth, .beginNode _ :: es => balanced (depth + 1) es
  | 0, .endNode :: _ => false
  | depth + 1, .endNode :: es => balanced depth es
  | depth, .prop _ _ :: es => balanced depth es

/-- The events that opened the nodes of the stack and filled them. -/
def openEvents : Open → List Event
  | [] => []
  | (name, before) :: stack => openEvents stack ++ itemsEvents before ++ [.beginNode name]

theorem itemsEvents_append (xs ys : List Item) :
    itemsEvents (xs ++ ys) = itemsEvents xs ++ itemsEvents ys := by
  induction xs with
  | nil => rfl
  | cons x xs ih => rw [List.cons_append, itemsEvents, itemsEvents, ih, List.append_assoc]

/-- Balanced events are those of a tree. -/
theorem parseItems_balanced {es : List Event} {stack : Open} (items : List Item)
    (h : balanced stack.length es = true) :
    ∃ tree, parseItems es stack items = some tree ∧
      itemsEvents tree = openEvents stack ++ itemsEvents items ++ es := by
  induction es generalizing stack items with
  | nil =>
    cases stack with
    | nil => exact ⟨items, rfl, by rw [openEvents, List.nil_append, List.append_nil]⟩
    | cons top stack => exact absurd h Bool.false_ne_true
  | cons e es ih =>
    cases e with
    | beginNode name =>
      have hopen : balanced ((name, items) :: stack).length es = true := h
      obtain ⟨tree, hparse, htree⟩ := ih [] hopen
      refine ⟨tree, hparse, ?_⟩
      rw [htree, openEvents, itemsEvents]
      simp
    | endNode =>
      cases stack with
      | nil => exact absurd h Bool.false_ne_true
      | cons top stack =>
        obtain ⟨name, before⟩ := top
        have hclose : balanced stack.length es = true := h
        obtain ⟨tree, hparse, htree⟩ := ih (before ++ [.node name items]) hclose
        refine ⟨tree, hparse, ?_⟩
        rw [htree, openEvents, itemsEvents_append]
        simp [itemsEvents, itemEvents]
    | prop name value =>
      have hprop : balanced stack.length es = true := by
        rw [balanced] at h
        exact h
      obtain ⟨tree, hparse, htree⟩ := ih (items ++ [.prop name value]) hprop
      refine ⟨tree, hparse, ?_⟩
      rw [htree, itemsEvents_append]
      simp [itemsEvents, itemEvents]

/-! ## Blobs -/

/-- `n` bytes of memory from `a` on. -/
def readBytes (f : Nat → BitVec 8) (a n : Nat) : Bytes := (List.range n).map fun i => f (a + i)

/-- The big-endian number at `a`. -/
def readBe32 (f : Nat → BitVec 8) (a : Nat) : BitVec 32 :=
  f a ++ f (a + 1) ++ f (a + 2) ++ f (a + 3)

/-- Memory after `bs` has been stored at `a`. -/
def writeBytes (f : Nat → BitVec 8) (a : Nat) (bs : Bytes) (x : Nat) : BitVec 8 :=
  if a ≤ x ∧ x < a + bs.length then bs.getD (x - a) 0 else f x

section

variable {f : Nat → BitVec 8} {a b n : Nat} {bs : Bytes}

@[simp] theorem length_readBytes : (readBytes f a n).length = n := by
  rw [readBytes, List.length_map, List.length_range]

theorem readBytes_congr {g : Nat → BitVec 8} (h : ∀ i, i < n → f (a + i) = g (b + i)) :
    readBytes f a n = readBytes g b n :=
  List.map_congr_left fun i hi => h i (List.mem_range.mp hi)

theorem readBytes_add (f : Nat → BitVec 8) (a m n : Nat) :
    readBytes f a (m + n) = readBytes f a m ++ readBytes f (a + m) n := by
  simp only [readBytes, List.range_add, List.map_append, List.map_map, Function.comp_def,
    Nat.add_assoc]

/-- What was stored is read back. -/
theorem readBytes_writeBytes (f : Nat → BitVec 8) (a : Nat) (bs : Bytes) :
    readBytes (writeBytes f a bs) a bs.length = bs := by
  refine List.ext_getElem length_readBytes fun i hi hi' => ?_
  simp only [readBytes, List.getElem_map, List.getElem_range, writeBytes]
  rw [if_pos ⟨Nat.le_add_right _ _, by omega⟩, Nat.add_sub_cancel_left,
    List.getD_eq_getElem _ _ hi']

/-- A store elsewhere does not matter. -/
theorem readBytes_apart (h : a + n ≤ b ∨ b + bs.length ≤ a) :
    readBytes (writeBytes f b bs) a n = readBytes f a n :=
  readBytes_congr fun i hi => if_neg (by omega)

theorem readBe32_eq {v : BitVec 32} (h : readBytes f a 4 = be32 v) : readBe32 f a = v := by
  have hget := getBe32_be32 v []
  rw [List.append_nil, ← h] at hget
  exact congrArg Prod.fst (Option.some.inj hget)

/-- A part of what is read. -/
theorem readBytes_split {xs ys : Bytes} (h : readBytes f a n = xs ++ ys) :
    readBytes f a xs.length = xs ∧ readBytes f (a + xs.length) ys.length = ys := by
  have hn : n = xs.length + ys.length := by
    rw [← List.length_append, ← h, length_readBytes]
  rw [hn, readBytes_add] at h
  exact List.append_inj h length_readBytes

/-- The numbers of a table. -/
theorem readBe32_table {ws : List (BitVec 32)} {i : Nat} (hi : i < ws.length)
    (h : readBytes f a (4 * ws.length) = ws.flatMap be32) : readBe32 f (a + 4 * i) = ws[i] := by
  induction ws generalizing a i with
  | nil => exact absurd hi (Nat.not_lt_zero _)
  | cons w ws ih =>
    rw [List.flatMap_cons] at h
    obtain ⟨hfirst, hrest⟩ := readBytes_split h
    cases i with
    | zero => exact readBe32_eq hfirst
    | succ i =>
      have hlen : (ws.flatMap be32).length = 4 * ws.length := by
        rw [List.length_flatMap]
        simp [Nat.mul_comm]
      rw [hlen] at hrest
      have hnext := ih (Nat.lt_of_succ_lt_succ hi) hrest
      rw [length_be32] at hnext
      rw [show a + 4 * (i + 1) = a + 4 + 4 * i by omega, hnext]
      rfl

end

def fdtMagic : BitVec 32 := 0xd00dfeed

/-- Reading the blob at `a`: its header, the end of its reservations, and its two blocks. -/
def decode (f : Nat → BitVec 8) (a : Nat) : Option (List Event) :=
  let total := (readBe32 f (a + 4)).toNat
  let offStruct := (readBe32 f (a + 8)).toNat
  let offStrings := (readBe32 f (a + 12)).toNat
  let offRsvmap := (readBe32 f (a + 16)).toNat
  let sizeStrings := (readBe32 f (a + 32)).toNat
  let sizeStruct := (readBe32 f (a + 36)).toNat
  if readBe32 f a = fdtMagic ∧ (readBe32 f (a + 24)).toNat ≤ 17 ∧ 17 ≤ (readBe32 f (a + 20)).toNat ∧
      40 ≤ offRsvmap ∧ offRsvmap % 8 = 0 ∧ offRsvmap + 16 ≤ offStruct ∧
      readBytes f (a + offRsvmap) 16 = List.replicate 16 0 ∧ offStruct % 4 = 0 ∧
      offStruct + sizeStruct ≤ offStrings ∧ offStrings + sizeStrings ≤ total then
    decodeStruct (readBytes f (a + offStrings) sizeStrings) (sizeStruct / 4 + 1)
      (readBytes f (a + offStruct) sizeStruct)
  else none

/-- The tree in the blob at `a`. -/
def decodeTree (f : Nat → BitVec 8) (a : Nat) : Option (List Item) :=
  (decode f a).bind fun es => parseItems es [] []

end FlatTree
