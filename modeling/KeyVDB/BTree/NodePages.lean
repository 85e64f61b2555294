import KeyVDB.BTree.NodeSplit
import KeyVDB.BTree.Occupancy
import KeyVDB.Lib.Follow

/-!
# Two pages, on bytes

`merge_from` and `steal_from_*` on the bytes of two pages, and with them the rest of `node.cpp`:
where a page holds a node, each operation on the bytes agrees with the operation on the list of
cells. Both return, and the pages hold the nodes again, or the same assertion fails.
-/

namespace KeyVDB

/-! ## Merging and borrowing on bytes -/

namespace RawPage

/-- A loop of `merge_from`: the `k` slots from `i` on of the other page are put into this one. -/
def absorb (put : RawPage → Nat → Except Exn (Bool × RawPage)) (room : String) :
    Nat → Nat → RawPage → Except Exn RawPage
  | 0, _, p => .ok p
  | k + 1, i, p => do
    match ← put p i with
    | (true, p) => absorb put room k (i + 1) p
    | (false, _) => throw (.assertion room)

/-- `merge_from` of a leaf. -/
def mergeLeafFrom (p right : RawPage) : Except Exn RawPage := do
  let p ← absorb right.putLeafCell "ok && \"merged node should have room\"" right.numKeys 0 p
  return p.setHdrId .rightSibling right.hdr.rightSibling

/-- `merge_from` of an internal node, without the parent pointers of the children. -/
def mergeInternalFrom (p right : RawPage) (sep : Bytes) : Except Exn RawPage := do
  match ← p.insertSeparator sep right.hdr.firstChild with
  | (true, p) =>
    absorb right.putSeparator "ok && \"merged internal node should have room\"" right.numKeys 0 p
  | (false, _) =>
    throw (.assertion "ok && \"merged internal node should have room for separator\"")

/-- `static_cast<uint16_t>(num_keys - 1)`: of a node without keys it is no slot. -/
def lastSlot (p : RawPage) : Nat := (p.numKeys + 2 ^ 16 - 1) % 2 ^ 16

/-- `steal_from_left` of a leaf: the node, its left sibling and the new separator. -/
def stealFromLeftLeaf (p left : RawPage) : Except Exn (RawPage × RawPage × Bytes) := do
  let k ← left.keyAt left.lastSlot
  let v ← left.valueAt left.lastSlot
  let left ← left.removeCell left.lastSlot
  match ← p.insertLeafCell k v with
  | (true, p) => return (p, left, k)
  | (false, _) => throw (.assertion "ok")

/-- `steal_from_left` of an internal node: also the child that moved. -/
def stealFromLeftInternal (p left : RawPage) :
    Except Exn (RawPage × RawPage × Bytes × PageId) := do
  let stolenKey ← left.keyAt left.lastSlot
  let stolenChild ← left.childAt left.lastSlot
  let left ← left.removeCell left.lastSlot
  let p ← (p.setHdrId .firstChild stolenChild).pushFront stolenKey p.hdr.firstChild
  return (p, left, stolenKey, stolenChild)

/-- `steal_from_right` of a leaf: the node, its right sibling and the new separator. -/
def stealFromRightLeaf (p right : RawPage) : Except Exn (RawPage × RawPage × Bytes) := do
  let k ← right.keyAt 0
  let v ← right.valueAt 0
  let right ← right.removeCell 0
  match ← p.insertLeafCell k v with
  | (true, p) =>
    let sep ← right.keyAt 0
    return (p, right, sep)
  | (false, _) => throw (.assertion "ok")

/-- `steal_from_right` of an internal node. -/
def stealFromRightInternal (p right : RawPage) :
    Except Exn (RawPage × RawPage × Bytes × PageId) := do
  let stolenKey ← right.keyAt 0
  let stolenChild := right.hdr.firstChild
  let firstChild ← right.childAt 0
  let right ← (right.setHdrId .firstChild firstChild).removeCell 0
  match ← p.insertSeparator stolenKey stolenChild with
  | (true, p) => return (p, right, stolenKey, stolenChild)
  | (false, _) => throw (.assertion "ok")

/-- `underflow`. -/
def underflow (p : RawPage) : Except Exn Bool := do
  return decide (NODE_USABLE_SIZE - (← p.freeSpace) < NODE_USABLE_SIZE / 2)

end RawPage

/-- A page id of the header is written. -/
def RawPage.HdrField.set (h : NodeHeader) (id : PageId) : RawPage.HdrField → NodeHeader
  | parentId => { h with parentId := id }
  | rightSibling => { h with rightSibling := id }
  | leftSibling => { h with leftSibling := id }
  | firstChild => { h with firstChild := id }

/-! ## One operation -/

section Results

variable {π ρ γ : Type}

/-- The two pages that a call leaves, and what it returns. -/
def SamePair (R : π → ρ → Prop) (x : π × π × γ) (y : ρ × ρ × γ) : Prop :=
  R x.1 y.1 ∧ R x.2.1 y.2.1 ∧ x.2.2 = y.2.2

/-- What an insert returns, and the page it leaves. -/
theorem SameResult.cases {R : π → ρ → Prop} {x : Bool × π} {y : Bool × ρ}
    (h : SameResult R x y) : (∃ p n, x = (true, p) ∧ y = (true, n) ∧ R p n) ∨
      ∃ p n, x = (false, p) ∧ y = (false, n) := by
  obtain ⟨ok, p⟩ := x
  obtain ⟨ok', n⟩ := y
  obtain ⟨hok, h⟩ := h
  cases hok
  cases ok with
  | true => exact .inl ⟨p, n, rfl, rfl, h⟩
  | false => exact .inr ⟨p, n, rfl, rfl⟩

end Results

section Holds

variable {α : Type} [CellValue α] [CellCodec α] {p q : RawPage} {n m : Node α}

/-- The page holds the node. -/
def Holds (p : RawPage) (n : Node α) : Prop := ∃ placed, Laid p n placed

omit [CellCodec α] in
theorem Node.lt_of_keyAt {i : Nat} {key : Bytes} (h : n.keyAt i = .ok key) : i < n.numKeys := by
  rw [Node.keyAt] at h
  split at h
  · next hc => exact (List.getElem?_eq_some_iff.mp hc).1
  · cases h

theorem Node.updateSeparatorKey_none (n : Node PageId) {slot : Nat} {newKey : Bytes}
    (hc : n.cells[slot]? = none) :
    n.updateSeparatorKey slot newKey = .error (.assertion "slot < hdr().num_keys") := by
  unfold Node.updateSeparatorKey
  split
  · rfl
  · next hsome => rw [hc] at hsome; cases hsome

theorem Node.updateSeparatorKey_length (n : Node PageId) {slot : Nat} {newKey : Bytes}
    {c : Bytes × PageId} (hc : n.cells[slot]? = some c) (hlen : c.1.length ≠ newKey.length) :
    n.updateSeparatorKey slot newKey =
      .error (.assertion "key_at(slot).size() == new_key.size()") := by
  unfold Node.updateSeparatorKey
  split
  · next hnone => rw [hc] at hnone; cases hnone
  · next k child hsome =>
    rw [hc] at hsome
    cases hsome
    rw [dif_neg hlen]

theorem Node.updateChildAt_none (n : Node PageId) {slot : Nat} {childId : PageId}
    (hc : n.cells[slot]? = none) :
    n.updateChildAt slot childId = .error (.assertion "slot < hdr().num_keys") := by
  unfold Node.updateChildAt
  split
  · rfl
  · next hsome => rw [hc] at hsome; cases hsome

theorem hdr_setHdrId (p : RawPage) (field : RawPage.HdrField) {id : PageId} (hid : InWord 4 id) :
    (p.setHdrId field id).hdr = field.set p.hdr id := by
  have hself (off : Nat) (h : off + 4 ≤ DATA_SIZE) : (p.data.setInt 4 off id).int 4 off = id :=
    Buffer.int_setInt h hid
  have hother (off off' : Nat) (h : off + 4 ≤ off' ∨ off' + 4 ≤ off) :
      (p.data.setInt 4 off id).int 4 off' = p.data.int 4 off' :=
    Buffer.int_congr fun i hlo hhi =>
      Buffer.get_writeAt_of_outside (by rw [length_intBytes]; omega)
  cases field with
  | parentId =>
    simp only [RawPage.hdr, RawPage.setHdrId, RawPage.HdrField.offset, RawPage.HdrField.set,
      hself 8 (by decide), hother 8 12 (by omega), hother 8 16 (by omega), hother 8 20 (by omega)]
  | rightSibling =>
    simp only [RawPage.hdr, RawPage.setHdrId, RawPage.HdrField.offset, RawPage.HdrField.set,
      hself 12 (by decide), hother 12 8 (by omega), hother 12 16 (by omega),
      hother 12 20 (by omega)]
  | leftSibling =>
    simp only [RawPage.hdr, RawPage.setHdrId, RawPage.HdrField.offset, RawPage.HdrField.set,
      hself 16 (by decide), hother 16 8 (by omega), hother 16 12 (by omega),
      hother 16 20 (by omega)]
  | firstChild =>
    simp only [RawPage.hdr, RawPage.setHdrId, RawPage.HdrField.offset, RawPage.HdrField.set,
      hself 20 (by decide), hother 20 8 (by omega), hother 20 12 (by omega),
      hother 20 16 (by omega)]

theorem copyFrom_eq_absorb (put : RawPage → Nat → Except Exn (Bool × RawPage)) (k i : Nat)
    (p : RawPage) : RawPage.copyFrom put k i p =
      RawPage.absorb put "ok && \"right node should have room during split\"" k i p := by
  induction k generalizing i p with
  | zero => rfl
  | succ k ih =>
    rw [RawPage.copyFrom, RawPage.absorb]
    refine congrArg (put p i >>= ·) (funext fun r => ?_)
    obtain ⟨ok, p'⟩ := r
    cases ok with
    | true => exact ih (i + 1) p'
    | false => rfl

namespace Holds

theorem isLeaf (h : Holds p n) : p.isLeaf = CellCodec.leaf α := by
  obtain ⟨placed, h⟩ := h
  exact h.leaf

theorem hdr (h : Holds p n) : p.hdr = n.hdr := by
  obtain ⟨placed, h⟩ := h
  exact h.hdr

theorem numKeys (h : Holds p n) : p.numKeys = n.numKeys := by
  obtain ⟨placed, h⟩ := h
  exact h.numKeys

theorem keyAt (h : Holds p n) (i : Nat) : p.keyAt i = n.keyAt i := by
  obtain ⟨placed, h⟩ := h
  exact h.keyAt_eq i

theorem payloadAt (h : Holds p n) (i : Nat) : p.payloadAt α i = n.valueAt i := by
  obtain ⟨placed, h⟩ := h
  exact h.payloadAt_eq i

theorem lowerBound (h : Holds p n) (key : Bytes) :
    p.lowerBound key = .ok (KeyVDB.lowerBound n.cells key) := by
  obtain ⟨placed, h⟩ := h
  exact h.lowerBound_eq key

theorem isFull (h : Holds p n) (size : Nat) : p.isFull size = .ok (n.isFull size) := by
  obtain ⟨placed, h⟩ := h
  exact h.isFull_eq size

theorem freeSpace (h : Holds p n) : p.freeSpace = .ok n.freeSpace := by
  obtain ⟨placed, h⟩ := h
  exact h.freeSpace_eq

theorem underflow (h : Holds p n) : p.underflow = .ok n.underflow := by
  rw [RawPage.underflow, h.freeSpace]
  rfl

theorem setHdrId (h : Holds p n) (field : RawPage.HdrField) {id : PageId} (hid : InWord 4 id) :
    Holds (p.setHdrId field id) { n with hdr := field.set n.hdr id } := by
  have hhdr := hdr_setHdrId p field hid
  rw [h.hdr] at hhdr
  obtain ⟨placed, h⟩ := h
  have h' := h.setHdrId field id
  rw [hhdr] at h'
  exact ⟨placed, h'⟩

/-- The page ids of a header are words. -/
theorem inWord_hdr (h : Holds p n) : InWord 4 n.hdr.parentId ∧ InWord 4 n.hdr.rightSibling ∧
    InWord 4 n.hdr.leftSibling ∧ InWord 4 n.hdr.firstChild := by
  rw [← h.hdr]
  exact ⟨Buffer.inWord_int _ _ _, Buffer.inWord_int _ _ _, Buffer.inWord_int _ _ _,
    Buffer.inWord_int _ _ _⟩

theorem removeCell_ok (h : Holds p n) {slot : Nat} (hslot : slot < n.numKeys) :
    ∃ p', p.removeCell slot = .ok p' ∧ Holds p' (n.removeCell slot) := by
  obtain ⟨placed, h⟩ := h
  obtain ⟨p', hexec, h'⟩ := h.removeCell_eq hslot
  exact ⟨p', hexec, _, h'⟩

theorem removeCell (h : Holds p n) (slot : Nat) :
    Agree Holds (p.removeCell slot) (n.removeCellAt slot) := by
  by_cases hslot : slot < n.numKeys
  · obtain ⟨p', hexec, h'⟩ := h.removeCell_ok hslot
    rw [hexec, Node.removeCellAt, if_pos hslot]
    exact .ok h'
  · rw [RawPage.removeCell, Node.removeCellAt, h.numKeys, if_neg hslot, if_neg hslot]
    exact .error _

theorem removeDownTo (h : Holds p n) (idx : Nat) :
    ∃ p', RawPage.removeDownTo idx p.numKeys p = .ok p' ∧ Holds p' (n.removeFrom idx) := by
  obtain ⟨placed, h⟩ := h
  obtain ⟨p', placed', hexec, h'⟩ := removeDownTo_eq h idx h.numKeys
  exact ⟨p', hexec, placed', h'⟩

theorem compact (hcompact : Compacts α) (h : Holds p n) :
    Agree Holds p.compact (.ok n.compact) := by
  obtain ⟨placed, h⟩ := h
  obtain ⟨p', placed', hexec, h'⟩ := hcompact h
  rw [hexec]
  exact .ok ⟨placed', h'⟩

/-- The loops of `split_into` and `merge_from`, with the room or without. -/
theorem absorb {insert : Node α → Bytes → α → Bool × Node α} {room : String}
    {put : RawPage → Nat → Except Exn (Bool × RawPage)} {cells : List (Bytes × α)}
    (hput : ∀ {q : RawPage} {m : Node α}, Holds q m → ∀ i c, cells[i]? = some c →
      Agree (SameResult Holds) (put q i) (.ok (insert m c.1 c.2)))
    (h : Holds p n) {k i : Nat} (hk : i + k = cells.length) :
    Agree Holds (RawPage.absorb put room k i p)
      (Node.copyCells insert room n (cells.drop i)) := by
  induction k generalizing p n i with
  | zero =>
    rw [List.drop_eq_nil_of_le (by omega)]
    exact .ok h
  | succ k ih =>
    have hi : i < cells.length := by omega
    rw [List.drop_eq_getElem_cons hi, RawPage.absorb, Node.copyCells]
    have hone := hput h i _ (List.getElem?_eq_getElem hi)
    obtain ⟨r, hexec, hdone⟩ := hone.of_ok
    refine .bind_ok hexec ?_
    rcases hdone.cases with ⟨p', n', rfl, hins, h'⟩ | ⟨p', n', rfl, hins⟩
    · rw [hins]
      exact ih h' (by omega)
    · rw [hins]
      exact .error _

theorem absorbAll {insert : Node α → Bytes → α → Bool × Node α} {room : String}
    {put : RawPage → Nat → Except Exn (Bool × RawPage)} {cells : List (Bytes × α)}
    (hput : ∀ {q : RawPage} {m : Node α}, Holds q m → ∀ i c, cells[i]? = some c →
      Agree (SameResult Holds) (put q i) (.ok (insert m c.1 c.2)))
    (h : Holds p n) {k : Nat} (hk : k = cells.length) :
    Agree Holds (RawPage.absorb put room k 0 p) (Node.copyCells insert room n cells) := by
  have hcopy : Agree Holds (RawPage.absorb put room k 0 p)
      (Node.copyCells insert room n (cells.drop 0)) := h.absorb hput ((Nat.zero_add k).trans hk)
  rwa [List.drop_zero] at hcopy

theorem copyFrom {insert : Node α → Bytes → α → Bool × Node α}
    {put : RawPage → Nat → Except Exn (Bool × RawPage)} {cells : List (Bytes × α)}
    (hput : ∀ {q : RawPage} {m : Node α}, Holds q m → ∀ i c, cells[i]? = some c →
      Agree (SameResult Holds) (put q i) (.ok (insert m c.1 c.2)))
    (h : Holds p n) {k i : Nat} (hk : i + k = cells.length) :
    Agree Holds (RawPage.copyFrom put k i p) (Node.copyCells insert
      "ok && \"right node should have room during split\"" n (cells.drop i)) := by
  rw [copyFrom_eq_absorb]
  exact h.absorb hput hk

/-- The last slot of a node with keys, and no slot of one without. -/
theorem lastSlot (h : Holds p n) : n.cells[p.lastSlot]? = n.cells.getLast? ∧
    (0 < n.numKeys → p.lastSlot = n.numKeys - 1) := by
  have hbounds := n.bounds
  have hlast : 0 < n.numKeys → p.lastSlot = n.numKeys - 1 := by
    intro hpos
    rw [RawPage.lastSlot, h.numKeys]
    omega
  refine ⟨?_, hlast⟩
  rw [List.getLast?_eq_getElem?]
  by_cases hpos : 0 < n.numKeys
  · rw [hlast hpos]
    rfl
  · have hnil : n.cells = [] := List.length_eq_zero_iff.mp (Nat.eq_zero_of_not_pos hpos)
    rw [hnil, List.getElem?_nil, List.getElem?_nil]

/-- `splitCheck` reads the counts of the two pages. -/
theorem splitCheck (h : Holds p n) (h' : Holds q m) :
    RawPage.splitCheck p q = Node.splitCheck n m := by
  rw [RawPage.splitCheck, Node.splitCheck, h.numKeys, h'.numKeys]

end Holds

end Holds

/-! ## Leaves -/

namespace Holds

section Leaf

variable {p q : RawPage} {n m : Node Bytes}

theorem insertLeafCell (h : Holds p n) (key value : Bytes) :
    Agree (SameResult Holds) (p.insertLeafCell key value) (.ok (n.insertLeafCell key value)) := by
  obtain ⟨placed, h⟩ := h
  obtain ⟨p', placed', hexec, h'⟩ := h.insertLeafCell_eq key value
  rw [hexec]
  exact .ok ⟨rfl, placed', h'⟩

theorem putLeafCell (h : Holds p n) (hq : Holds q m) (i : Nat) (c : Bytes × Bytes)
    (hc : n.cells[i]? = some c) :
    Agree (SameResult Holds) (p.putLeafCell q i) (.ok (m.insertLeafCell c.1 c.2)) := by
  have hkey : p.keyAt i = .ok c.1 := by rw [h.keyAt, Node.keyAt, hc]
  have hval : p.valueAt i = .ok c.2 := by rw [RawPage.valueAt, h.payloadAt, Node.valueAt, hc]
  rw [RawPage.putLeafCell, hkey, hval]
  exact hq.insertLeafCell c.1 c.2

theorem splitScan_leaf (h : Holds p n) (half : Nat) :
    RawPage.splitScan p.leafCellBytes half p.numKeys 0 0 =
      .ok (Node.splitIdx half n.cells 0 0) := by
  obtain ⟨placed, h⟩ := h
  rw [splitScan_eq (leafCellBytes_eq h) (by rw [h.numKeys, Node.numKeys, Nat.zero_add]),
    List.drop_zero]

theorem splitLeafInto (h : Holds p n) (hq : Holds q m) {id rightId : PageId} (hid : InWord 4 id)
    (hright : InWord 4 rightId) :
    Agree (SamePair Holds) (p.splitLeafInto q id rightId) (n.splitLeaf m id rightId) := by
  obtain ⟨hparent, hsibling, -, -⟩ := h.inWord_hdr
  rw [RawPage.splitLeafInto, Node.splitLeaf, h.hdr]
  refine .bind_eq (h.splitCheck hq) fun _ _ => ?_
  refine .bind_ok h.freeSpace ?_
  refine .bind_ok (h.splitScan_leaf _) ?_
  refine .bind_eq (h.keyAt _) fun sep hsep => ?_
  have hle : n.splitAt ≤ n.cells.length := by
    rw [h.keyAt] at hsep
    exact (Node.lt_of_keyAt hsep).le
  have hq₁ := hq.setHdrId .parentId hparent
  refine .bind (hq₁.copyFrom (fun hq i c hc => h.putLeafCell hq i c hc) ?_) fun q' m' hq' => ?_
  · rw [h.numKeys]
    exact Nat.add_sub_of_le hle
  obtain ⟨p', hremove, hp'⟩ := h.removeDownTo n.splitAt
  refine .bind_ok hremove (.ok ⟨hp'.setHdrId .rightSibling hright, ?_, rfl⟩)
  rw [hp'.hdr]
  exact (hq'.setHdrId .rightSibling hsibling).setHdrId .leftSibling hid

theorem mergeLeafFrom (h : Holds p n) (hq : Holds q m) :
    Agree Holds (p.mergeLeafFrom q) (n.mergeLeaf m) := by
  obtain ⟨-, hsibling, -, -⟩ := hq.inWord_hdr
  rw [RawPage.mergeLeafFrom, Node.mergeLeaf]
  refine (h.absorbAll (fun hp i c hc => hq.putLeafCell hp i c hc) hq.numKeys).bind
    fun p' n' h' => .ok ?_
  rw [hq.hdr]
  exact h'.setHdrId .rightSibling hsibling

theorem stealFromLeftLeaf (h : Holds p n) (hq : Holds q m) :
    Agree (SamePair Holds) (p.stealFromLeftLeaf q) (n.stealFromLeftLeaf m) := by
  obtain ⟨hlast, hslot⟩ := hq.lastSlot
  rw [RawPage.stealFromLeftLeaf, Node.stealFromLeftLeaf, RawPage.valueAt, hq.keyAt, hq.payloadAt,
    Node.keyAt, Node.valueAt, hlast]
  cases hc : m.cells.getLast? with
  | none => exact .error _
  | some c =>
    have hpos : 0 < m.numKeys := List.length_pos_of_mem (List.mem_of_getLast? hc)
    obtain ⟨q', hremove, hq'⟩ := hq.removeCell_ok (Nat.sub_one_lt_of_lt hpos)
    refine .bind_ok rfl (.bind_ok rfl ?_)
    rw [hslot hpos]
    refine .bind_ok hremove ?_
    obtain ⟨r, hexec, hdone⟩ := (h.insertLeafCell c.1 c.2).of_ok
    refine .bind_ok hexec ?_
    dsimp only
    rcases hdone.cases with ⟨p', n', rfl, hins, h'⟩ | ⟨p', n', rfl, hins⟩
    · rw [hins]
      exact .ok ⟨h', hq', rfl⟩
    · rw [hins]
      exact .error _

theorem stealFromRightLeaf (h : Holds p n) (hq : Holds q m) :
    Agree (SamePair Holds) (p.stealFromRightLeaf q) (n.stealFromRightLeaf m) := by
  rw [RawPage.stealFromRightLeaf, Node.stealFromRightLeaf]
  refine .bind_eq (hq.keyAt 0) fun k hk => ?_
  refine .bind_eq (hq.payloadAt 0) fun v _ => ?_
  rw [hq.keyAt] at hk
  obtain ⟨q', hremove, hq'⟩ := hq.removeCell_ok (Node.lt_of_keyAt hk)
  refine .bind_ok hremove ?_
  obtain ⟨r, hexec, hdone⟩ := (h.insertLeafCell k v).of_ok
  refine .bind_ok hexec ?_
  rcases hdone.cases with ⟨p', n', rfl, hins, h'⟩ | ⟨p', n', rfl, hins⟩
  · rw [hins]
    exact .bind_eq (hq'.keyAt 0) fun sep _ => .ok ⟨h', hq', rfl⟩
  · rw [hins]
    exact .error _

end Leaf

/-! ## Internal pages -/

section Internal

variable {p q : RawPage} {n m : Node PageId} {child : PageId}

theorem insertSeparator (h : Holds p n) (key : Bytes) (hchild : InWord 4 child) :
    Agree (SameResult Holds) (p.insertSeparator key child) (.ok (n.insertSeparator key child)) := by
  obtain ⟨placed, h⟩ := h
  obtain ⟨p', placed', hexec, h'⟩ := h.insertSeparator_eq key hchild
  rw [hexec]
  exact .ok ⟨rfl, placed', h'⟩

/-- The children in the cells are words. -/
theorem inWord_of_mem (h : Holds p n) {c : Bytes × PageId} (hc : c ∈ n.cells) : InWord 4 c.2 := by
  obtain ⟨placed, h⟩ := h
  exact h.storable c hc

theorem inWord_of_valueAt (h : Holds p n) {slot : Nat}
    (hchild : p.payloadAt PageId slot = .ok child) : InWord 4 child := by
  rw [h.payloadAt, Node.valueAt] at hchild
  split at hchild
  · next c hc =>
    cases hchild
    exact h.inWord_of_mem (List.mem_of_getElem? hc)
  · cases hchild

theorem putSeparator (h : Holds p n) (hq : Holds q m) (i : Nat) (c : Bytes × PageId)
    (hc : n.cells[i]? = some c) :
    Agree (SameResult Holds) (p.putSeparator q i) (.ok (m.insertSeparator c.1 c.2)) := by
  have hkey : p.keyAt i = .ok c.1 := by rw [h.keyAt, Node.keyAt, hc]
  have hchild : p.childAt i = .ok c.2 := by rw [RawPage.childAt, h.payloadAt, Node.valueAt, hc]
  rw [RawPage.putSeparator, hkey, hchild]
  exact hq.insertSeparator c.1 (h.inWord_of_mem (List.mem_of_getElem? hc))

theorem updateSeparatorKey (h : Holds p n) (slot : Nat) (newKey : Bytes) :
    Agree Holds (p.updateSeparatorKey slot newKey) (n.updateSeparatorKey slot newKey) := by
  have hkey := h.keyAt slot
  have hnum := h.numKeys
  obtain ⟨placed, h⟩ := h
  have hleaf : p.isLeaf = false := h.leaf
  cases hc : n.cells[slot]? with
  | none =>
    have hge : ¬ slot < p.numKeys := by
      rw [hnum]
      exact Nat.not_lt.mpr (List.getElem?_eq_none_iff.mp hc)
    rw [n.updateSeparatorKey_none hc]
    simp only [RawPage.updateSeparatorKey, hleaf, hge, Bool.false_eq_true, if_false,
      not_false_eq_true, if_true]
    exact .error _
  | some c =>
    by_cases hlen : c.1.length = newKey.length
    · obtain ⟨p', n', placed', hexec, hnode, -, h'⟩ := h.updateSeparatorKey_eq hc hlen
      rw [hexec, hnode]
      exact .ok ⟨placed', h'⟩
    · have hlt : slot < p.numKeys := by
        rw [hnum]
        exact (List.getElem?_eq_some_iff.mp hc).1
      rw [Node.keyAt, hc] at hkey
      rw [n.updateSeparatorKey_length hc hlen]
      simp only [RawPage.updateSeparatorKey, hleaf, hlt, hkey, hlen, bind, Except.bind,
        Bool.false_eq_true, if_false, not_true_eq_false, ne_eq, not_false_eq_true, if_true]
      exact .error _

theorem updateChildAt (h : Holds p n) (slot : Nat) (hchild : InWord 4 child) :
    Agree Holds (p.updateChildAt slot child) (n.updateChildAt slot child) := by
  have hnum := h.numKeys
  obtain ⟨placed, h⟩ := h
  have hleaf : p.isLeaf = false := h.leaf
  cases hc : n.cells[slot]? with
  | none =>
    have hge : ¬ slot < p.numKeys := by
      rw [hnum]
      exact Nat.not_lt.mpr (List.getElem?_eq_none_iff.mp hc)
    rw [n.updateChildAt_none hc]
    simp only [RawPage.updateChildAt, hleaf, hge, Bool.false_eq_true, if_false,
      not_false_eq_true, if_true]
    exact .error _
  | some c =>
    obtain ⟨p', n', placed', hexec, hnode, -, h'⟩ := h.updateChildAt_eq hc hchild
    rw [hexec, hnode]
    exact .ok ⟨placed', h'⟩

theorem pushFront (h : Holds p n) (key : Bytes) (hchild : InWord 4 child) :
    Agree (SameResult Holds) (p.place 0 key child) (.ok (n.place 0 key child)) := by
  obtain ⟨placed, h⟩ := h
  obtain ⟨p', placed', hexec, h'⟩ := h.place_eq compacts_internal (Nat.zero_le _) key child
    fun _ => hchild
  rw [hexec]
  exact .ok ⟨rfl, placed', h'⟩

theorem splitScan_internal (h : Holds p n) (half : Nat) :
    RawPage.splitScan p.internalCellBytes half p.numKeys 0 0 =
      .ok (Node.splitIdx half n.cells 0 0) := by
  obtain ⟨placed, h⟩ := h
  rw [splitScan_eq (internalCellBytes_eq h) (by rw [h.numKeys, Node.numKeys, Nat.zero_add]),
    List.drop_zero]

theorem splitInternalInto (h : Holds p n) (hq : Holds q m) :
    Agree (SamePair Holds) (p.splitInternalInto q) (n.splitInternal m) := by
  obtain ⟨hparent, -, -, -⟩ := h.inWord_hdr
  rw [RawPage.splitInternalInto, Node.splitInternal, h.hdr, h.numKeys]
  refine .bind_eq (h.splitCheck hq) fun _ _ => ?_
  refine .bind_ok h.freeSpace ?_
  refine .bind_ok (h.numKeys ▸ h.splitScan_internal _) ?_
  refine .bind_eq (h.keyAt n.splitMid) fun sep (hsep : p.keyAt n.splitMid = .ok sep) => ?_
  refine .bind_eq (h.payloadAt n.splitMid)
    fun child (hchild : p.payloadAt PageId n.splitMid = .ok child) => ?_
  have hlt : n.splitMid < n.cells.length := by
    rw [h.keyAt] at hsep
    exact Node.lt_of_keyAt hsep
  have hword : InWord 4 child := h.inWord_of_valueAt hchild
  have hq₁ := (hq.setHdrId .parentId hparent).setHdrId .firstChild hword
  refine .bind (hq₁.copyFrom (fun hq i c hc => h.putSeparator hq i c hc) ?_) fun q' m' hq' => ?_
  · exact Nat.add_sub_of_le hlt
  obtain ⟨p', hremove, hp'⟩ := h.removeDownTo n.splitMid
  rw [h.numKeys] at hremove
  exact .bind_ok hremove (.ok ⟨hp', hq', rfl⟩)

theorem mergeInternalFrom (h : Holds p n) (hq : Holds q m) (sep : Bytes) :
    Agree Holds (p.mergeInternalFrom q sep) (n.mergeInternal m sep) := by
  obtain ⟨-, -, -, hfirst⟩ := hq.inWord_hdr
  rw [RawPage.mergeInternalFrom, Node.mergeInternal, hq.hdr]
  obtain ⟨r, hexec, hdone⟩ := (h.insertSeparator sep hfirst).of_ok
  refine .bind_ok hexec ?_
  rcases hdone.cases with ⟨p', n', rfl, hins, h'⟩ | ⟨p', n', rfl, hins⟩
  · rw [hins]
    exact h'.absorbAll (fun hp i c hc => hq.putSeparator hp i c hc) hq.numKeys
  · rw [hins]
    exact .error _

theorem stealFromLeftInternal (h : Holds p n) (hq : Holds q m) :
    Agree (SamePair Holds) (p.stealFromLeftInternal q) (n.stealFromLeftInternal m) := by
  obtain ⟨hlast, hslot⟩ := hq.lastSlot
  obtain ⟨-, -, -, hfirst⟩ := h.inWord_hdr
  rw [RawPage.stealFromLeftInternal, Node.stealFromLeftInternal, RawPage.childAt, hq.keyAt,
    hq.payloadAt, Node.keyAt, Node.valueAt, hlast, h.hdr]
  cases hc : m.cells.getLast? with
  | none => exact .error _
  | some c =>
    have hmem : c ∈ m.cells := List.mem_of_getLast? hc
    have hpos : 0 < m.numKeys := List.length_pos_of_mem hmem
    obtain ⟨q', hremove, hq'⟩ := hq.removeCell_ok (Nat.sub_one_lt_of_lt hpos)
    refine .bind_ok rfl (.bind_ok rfl ?_)
    rw [hslot hpos]
    refine .bind_ok hremove ?_
    have h₁ := h.setHdrId .firstChild (hq.inWord_of_mem hmem)
    obtain ⟨r, hexec, hdone⟩ := (h₁.pushFront c.1 hfirst).of_ok
    rw [RawPage.pushFront, hexec]
    dsimp only
    rcases hdone.cases with ⟨p', n', rfl, hins, h'⟩ | ⟨p', n', rfl, hins⟩
    · simp only [RawPage.HdrField.set] at hins
      rw [hins]
      exact .ok ⟨h', hq', rfl⟩
    · simp only [RawPage.HdrField.set] at hins
      rw [hins]
      exact .error _

theorem stealFromRightInternal (h : Holds p n) (hq : Holds q m) :
    Agree (SamePair Holds) (p.stealFromRightInternal q) (n.stealFromRightInternal m) := by
  obtain ⟨-, -, -, hfirst⟩ := hq.inWord_hdr
  rw [RawPage.stealFromRightInternal, Node.stealFromRightInternal, hq.hdr]
  refine .bind_eq (hq.keyAt 0) fun k hk => ?_
  refine .bind_eq (hq.payloadAt 0)
    fun child (hchild : q.payloadAt PageId 0 = .ok child) => ?_
  rw [hq.keyAt] at hk
  have hlt : 0 < m.cells.length := Node.lt_of_keyAt hk
  have hword : InWord 4 child := hq.inWord_of_valueAt hchild
  obtain ⟨q', hremove, hq'⟩ := (hq.setHdrId .firstChild hword).removeCell_ok hlt
  refine .bind_ok hremove ?_
  obtain ⟨r, hexec, hdone⟩ := (h.insertSeparator k hfirst).of_ok
  refine .bind_ok hexec ?_
  rcases hdone.cases with ⟨p', n', rfl, hins, h'⟩ | ⟨p', n', rfl, hins⟩
  · rw [hins]
    exact .ok ⟨h', hq', rfl⟩
  · rw [hins]
    exact .error _

end Internal

end Holds

end KeyVDB
