import KeyVDB.Storage.Disk
import KeyVDB.Lib.Slots
import Mathlib.Data.List.Lex
import Mathlib.Algebra.BigOperators.Group.List.Basic

/-!
# Slotted pages

`node.{h,cpp}`: a node is a list of cells in key order and the lower end of the cell heap. The slot
array and the cells are above and below the free space, so a node carries the two bounds that keep
them apart; `remove_cell` leaves the bytes of the cell in the heap until `compact`. Leaf and
internal nodes differ in what a cell holds besides its key.
-/

namespace KeyVDB

/-! ## Keys -/

instance instLinearOrderUInt8 : LinearOrder UInt8 where
  le_refl := UInt8.le_refl
  le_trans _ _ _ := UInt8.le_trans
  le_antisymm _ _ := UInt8.le_antisymm
  le_total := UInt8.le_total
  lt_iff_le_not_ge _ _ := by
    rw [UInt8.lt_iff_toNat_lt, UInt8.le_iff_toNat_le, UInt8.le_iff_toNat_le]
    omega
  toDecidableLE := inferInstance

/-! ## Cells -/

/-- What a cell holds besides its key; the payload size is that of the whole cell. -/
class CellValue (α : Type) where
  cellSize : Bytes → α → Nat

/-- A leaf cell holds a value. -/
instance : CellValue Bytes := ⟨fun key value => leafCellSize key.length value.length⟩

/-- An internal cell holds the child to the right of its key. -/
instance : CellValue PageId := ⟨fun key _ => internalCellSize key.length⟩

export CellValue (cellSize)

section Cells

variable {α : Type} [CellValue α]

/-- The bytes of the cells in the heap. -/
def heapSize (cells : List (Bytes × α)) : Nat := (cells.map fun c => cellSize c.1 c.2).sum

/-- The bytes of one cell with its slot. -/
def cellCost (c : Bytes × α) : Nat := totalCellCost (cellSize c.1 c.2)

/-- The bytes of the cells with their slots. -/
def cellsCost (cells : List (Bytes × α)) : Nat := (cells.map cellCost).sum

end Cells

/-- The page ids of `struct NodeHeader`. -/
structure NodeHeader where
  parentId : PageId
  rightSibling : PageId := INVALID_PAGE_ID
  leftSibling : PageId := INVALID_PAGE_ID
  firstChild : PageId := INVALID_PAGE_ID

/-- A B+Tree page: `num_keys` is the number of cells, and `free_end` follows from it. -/
structure Node (α : Type) [CellValue α] where
  hdr : NodeHeader
  cellEnd : Nat
  cells : List (Bytes × α)
  slots_le : SLOT_ARRAY_START + SLOT_SIZE * cells.length ≤ cellEnd
  heap_le : cellEnd + heapSize cells ≤ NODE_DATA_SIZE

section Sizes

variable {α : Type} [CellValue α]

@[simp] theorem heapSize_nil : heapSize ([] : List (Bytes × α)) = 0 := rfl

@[simp] theorem heapSize_cons (c : Bytes × α) (l : List (Bytes × α)) :
    heapSize (c :: l) = cellSize c.1 c.2 + heapSize l := by simp [heapSize]

@[simp] theorem heapSize_append (a b : List (Bytes × α)) :
    heapSize (a ++ b) = heapSize a + heapSize b := by simp [heapSize]

@[simp] theorem cellsCost_nil : cellsCost ([] : List (Bytes × α)) = 0 := rfl

@[simp] theorem cellsCost_cons (c : Bytes × α) (l : List (Bytes × α)) :
    cellsCost (c :: l) = cellCost c + cellsCost l := by simp [cellsCost]

@[simp] theorem cellsCost_append (a b : List (Bytes × α)) :
    cellsCost (a ++ b) = cellsCost a + cellsCost b := by simp [cellsCost]

theorem cellsCost_eq (l : List (Bytes × α)) :
    cellsCost l = SLOT_SIZE * l.length + heapSize l := by
  induction l with
  | nil => rfl
  | cons c l ih =>
    rw [cellsCost_cons, ih, heapSize_cons, List.length_cons, cellCost, totalCellCost,
      Nat.mul_add_one]
    omega

theorem heapSize_le_of_sublist {a b : List (Bytes × α)} (h : a.Sublist b) :
    heapSize a ≤ heapSize b := by
  induction h with
  | slnil => exact Nat.le_refl _
  | cons c _ ih => rw [heapSize_cons]; omega
  | cons_cons c _ ih => rw [heapSize_cons, heapSize_cons]; omega

theorem heapSize_insertIdx (l : List (Bytes × α)) (slot : Nat) (c : Bytes × α) :
    heapSize (l.insertIdx slot c) ≤ cellSize c.1 c.2 + heapSize l := by
  induction l generalizing slot with
  | nil =>
    cases slot with
    | zero => simp
    | succ slot => simp
  | cons d l ih =>
    cases slot with
    | zero => simp
    | succ slot =>
      have h := ih slot
      simp only [List.insertIdx_succ_cons, heapSize_cons]
      omega

theorem heapSize_set {l : List (Bytes × α)} {slot : Nat} {c : Bytes × α}
    (h : ∀ d ∈ l[slot]?, cellSize c.1 c.2 = cellSize d.1 d.2) :
    heapSize (l.set slot c) = heapSize l := by
  induction l generalizing slot with
  | nil => rfl
  | cons d l ih =>
    cases slot with
    | zero =>
      have e := h d rfl
      simp [e]
    | succ slot =>
      rw [List.set_cons_succ, heapSize_cons, heapSize_cons, ih fun d hd => h d (by simpa using hd)]

omit [CellValue α] in
theorem length_insertIdx_le (l : List (Bytes × α)) (slot : Nat) (c : Bytes × α) :
    (l.insertIdx slot c).length ≤ l.length + 1 := by
  rw [List.length_insertIdx]
  split <;> omega

end Sizes

namespace Node

/-! ## Capacity -/

section Capacity

variable {α : Type} [CellValue α]

/-- `init_leaf` and `init_internal`. -/
def init (parentId : PageId) : Node α where
  hdr := { parentId }
  cellEnd := NODE_DATA_SIZE
  cells := []
  slots_le := by rw [List.length_nil]; decide
  heap_le := by simp

def numKeys (n : Node α) : Nat := n.cells.length

def freeEnd (n : Node α) : Nat := SLOT_ARRAY_START + SLOT_SIZE * n.numKeys

def freeSpace (n : Node α) : Nat := n.cellEnd - n.freeEnd

def isFull (n : Node α) (newCellBytes : Nat) : Bool := n.freeSpace < totalCellCost newCellBytes

/-- Less than half full, by the bytes that are not between slots and heap. -/
def underflow (n : Node α) : Bool := NODE_USABLE_SIZE - n.freeSpace < NODE_USABLE_SIZE / 2

end Capacity

/-! ## Reading cells -/

section Read

variable {α : Type} [CellValue α]

def keyAt (n : Node α) (slot : Nat) : Except Exn Bytes :=
  match n.cells[slot]? with
  | some c => .ok c.1
  | none => .error (.assertion "slot < hdr().num_keys")

/-- `value_at` and `child_at`. -/
def valueAt (n : Node α) (slot : Nat) : Except Exn α :=
  match n.cells[slot]? with
  | some c => .ok c.2
  | none => .error (.assertion "slot < hdr().num_keys")

/-- The child for a key: separators up to and including the key are passed. -/
def childFor (n : Node PageId) (key : Bytes) : PageId :=
  let lb := lowerBound n.cells key
  let ub := lb + ((n.cells.drop lb).takeWhile fun c => c.1 = key).length
  if ub = 0 then n.hdr.firstChild
  else ((n.cells[ub - 1]?).map Prod.snd).getD INVALID_PAGE_ID

end Read

/-! ## Changing cells -/

section Write

variable {α : Type} [CellValue α]

/-- `write_leaf_cell` and `write_internal_cell`, whose assertion is the hypothesis. -/
def writeCell (n : Node α) (slot : Nat) (key : Bytes) (a : α)
    (h : n.isFull (cellSize key a) = false) : Node α where
  hdr := n.hdr
  cellEnd := n.cellEnd - cellSize key a
  cells := n.cells.insertIdx slot (key, a)
  slots_le := by
    have hlen := length_insertIdx_le n.cells slot (key, a)
    have hslots := n.slots_le
    have hroom : ¬ n.freeSpace < totalCellCost (cellSize key a) := by simpa [isFull] using h
    simp only [freeSpace, freeEnd, numKeys, totalCellCost, SLOT_SIZE] at *
    omega
  heap_le := by
    have hheap := heapSize_insertIdx n.cells slot (key, a)
    have hslots := n.slots_le
    have hle := n.heap_le
    have hroom : ¬ n.freeSpace < totalCellCost (cellSize key a) := by simpa [isFull] using h
    simp only [freeSpace, freeEnd, numKeys, totalCellCost] at *
    omega

/-- `compact`: the live cells are written again, in order, into an empty heap. -/
def compact (n : Node α) : Node α where
  hdr := n.hdr
  cellEnd := NODE_DATA_SIZE - heapSize n.cells
  cells := n.cells
  slots_le := by
    have hslots := n.slots_le
    have hle := n.heap_le
    omega
  heap_le := by
    have hle := n.heap_le
    omega

/-- `remove_cell`: the slot goes, the bytes in the heap stay. -/
def removeCell (n : Node α) (slot : Nat) : Node α where
  hdr := n.hdr
  cellEnd := n.cellEnd
  cells := n.cells.eraseIdx slot
  slots_le := by
    have hlen := List.length_eraseIdx_le n.cells slot
    have hslots := n.slots_le
    simp only [SLOT_SIZE] at *
    omega
  heap_le := by
    have hheap := heapSize_le_of_sublist (List.eraseIdx_sublist n.cells slot)
    have hle := n.heap_le
    omega

/-- `remove_cell` on every slot from `slot` on, last slot first. -/
def removeFrom (n : Node α) (slot : Nat) : Node α where
  hdr := n.hdr
  cellEnd := n.cellEnd
  cells := n.cells.take slot
  slots_le := by
    have hlen := List.length_take_le' slot n.cells
    have hslots := n.slots_le
    simp only [SLOT_SIZE] at *
    omega
  heap_le := by
    have hheap := heapSize_le_of_sublist (List.take_sublist slot n.cells)
    have hle := n.heap_le
    omega

/-- A cell is overwritten in place by one of the same size. -/
def setCell (n : Node α) (slot : Nat) (c : Bytes × α)
    (h : ∀ d ∈ n.cells[slot]?, cellSize c.1 c.2 = cellSize d.1 d.2) : Node α where
  hdr := n.hdr
  cellEnd := n.cellEnd
  cells := n.cells.set slot c
  slots_le := by rw [List.length_set]; exact n.slots_le
  heap_le := by rw [heapSize_set h]; exact n.heap_le

/-- The end of `insert_leaf_cell` and `insert_separator`: compact if the cell does not fit, give up
if it still does not, else write it. -/
def place (n : Node α) (slot : Nat) (key : Bytes) (a : α) : Bool × Node α :=
  let n := if n.isFull (cellSize key a) then n.compact else n
  if h : n.isFull (cellSize key a) = false then (true, n.writeCell slot key a h) else (false, n)

def insertLeafCell (n : Node Bytes) (key value : Bytes) : Bool × Node Bytes :=
  let slot := lowerBound n.cells key
  match hc : n.cells[slot]? with
  | none => n.place slot key value
  | some (k, old) =>
    if hk : k = key then
      if hsize : old.length = value.length then
        (true, n.setCell slot (key, value) (by
          intro d hd
          rw [hc] at hd
          cases hd
          simp only [cellSize, hk, hsize]))
      else
        -- the old entry goes before it is known that the new one fits
        let n := n.removeCell slot
        n.place (lowerBound n.cells key) key value
    else n.place slot key value

def insertSeparator (n : Node PageId) (key : Bytes) (rightChild : PageId) : Bool × Node PageId :=
  n.place (lowerBound n.cells key) key rightChild

def updateSeparatorKey (n : Node PageId) (slot : Nat) (newKey : Bytes) :
    Except Exn (Node PageId) :=
  match hc : n.cells[slot]? with
  | none => .error (.assertion "slot < hdr().num_keys")
  | some (k, child) =>
    if h : k.length = newKey.length then
      .ok (n.setCell slot (newKey, child) (by
        intro d hd
        rw [hc] at hd
        cases hd
        simp only [cellSize, h]))
    else .error (.assertion "key_at(slot).size() == new_key.size()")

def updateChildAt (n : Node PageId) (slot : Nat) (childId : PageId) : Except Exn (Node PageId) :=
  match hc : n.cells[slot]? with
  | none => .error (.assertion "slot < hdr().num_keys")
  | some (k, _) =>
    .ok (n.setCell slot (k, childId) (by
      intro d hd
      rw [hc] at hd
      cases hd
      simp only [cellSize]))

/-- Cells copied one by one into a node that must have room for them. -/
def copyCells (insert : Node α → Bytes → α → Bool × Node α) (room : String) :
    Node α → List (Bytes × α) → Except Exn (Node α)
  | n, [] => .ok n
  | n, c :: cells =>
    match insert n c.1 c.2 with
    | (true, n) => copyCells insert room n cells
    | (false, _) => .error (.assertion room)

end Write

/-! ## Splitting -/

section Split

variable {α : Type} [CellValue α]

/-- The walk over the cells that looks for the middle of the bytes. -/
def splitIdx (half : Nat) : List (Bytes × α) → Nat → Nat → Nat
  | [], i, _ => i
  | c :: cells, i, acc =>
    if half < acc + cellCost c ∧ 0 < i then i else splitIdx half cells (i + 1) (acc + cellCost c)

/-- The assertions with which `split_into` starts. -/
def splitCheck (n right : Node α) : Except Exn Unit :=
  if n.numKeys < 2 then
    .error (.assertion "n >= 2 && \"cannot split a node with fewer than 2 keys\"")
  else if right.numKeys ≠ 0 then
    .error (.assertion "right.hdr().num_keys == 0 && \"right node must be empty\"")
  else .ok ()

/-- Where `split_into` cuts: the walk starts with half of the bytes in use. -/
def splitAt (n : Node α) : Nat := splitIdx ((NODE_USABLE_SIZE - n.freeSpace) / 2) n.cells 0 0

/-- `split_into` of a leaf: what is left, the right half and the separator. -/
def splitLeaf (n right : Node Bytes) (id rightId : PageId) :
    Except Exn (Node Bytes × Node Bytes × Bytes) := do
  splitCheck n right
  let right := { right with hdr := { right.hdr with parentId := n.hdr.parentId } }
  let sep ← n.keyAt n.splitAt
  let right ← copyCells insertLeafCell "ok && \"right node should have room during split\"" right
    (n.cells.drop n.splitAt)
  let left := n.removeFrom n.splitAt
  return ({ left with hdr := { left.hdr with rightSibling := rightId } },
    { right with
      hdr := { right.hdr with rightSibling := n.hdr.rightSibling, leftSibling := id } },
    sep)

/-- The middle of an internal node is clamped to an interior slot. -/
def splitMid (n : Node PageId) : Nat :=
  let mid := if n.splitAt = 0 then 1 else n.splitAt
  if n.numKeys - 1 ≤ mid then n.numKeys - 1 else mid

/-- `split_into` of an internal node: the middle key is promoted. -/
def splitInternal (n right : Node PageId) :
    Except Exn (Node PageId × Node PageId × Bytes) := do
  splitCheck n right
  let sep ← n.keyAt n.splitMid
  let firstChild ← n.valueAt n.splitMid
  let right := { right with hdr := { right.hdr with parentId := n.hdr.parentId, firstChild } }
  let right ← copyCells insertSeparator "ok && \"right node should have room during split\"" right
    (n.cells.drop (n.splitMid + 1))
  return (n.removeFrom n.splitMid, right, sep)

end Split

/-! ## Merging -/

/-- `merge_from` of a leaf. -/
def mergeLeaf (n right : Node Bytes) : Except Exn (Node Bytes) := do
  let n ← copyCells insertLeafCell "ok && \"merged node should have room\"" n right.cells
  return { n with hdr := { n.hdr with rightSibling := right.hdr.rightSibling } }

/-- `merge_from` of an internal node: the separator is pulled down. -/
def mergeInternal (n right : Node PageId) (sep : Bytes) : Except Exn (Node PageId) :=
  match n.insertSeparator sep right.hdr.firstChild with
  | (true, n) =>
    copyCells insertSeparator "ok && \"merged internal node should have room\"" n right.cells
  | (false, _) =>
    .error (.assertion "ok && \"merged internal node should have room for separator\"")

/-! ## Borrowing -/

/-- `steal_from_left` of a leaf: the node, its left sibling and the new separator. -/
def stealFromLeftLeaf (n left : Node Bytes) : Except Exn (Node Bytes × Node Bytes × Bytes) :=
  match left.cells.getLast? with
  | none => .error (.assertion "slot < hdr().num_keys")
  | some (k, v) =>
    match n.insertLeafCell k v with
    | (true, n) => .ok (n, left.removeCell (left.numKeys - 1), k)
    | (false, _) => .error (.assertion "ok")

/-- `steal_from_left` of an internal node: also the child that moved. The key that goes into the
node is the one that left the sibling. -/
def stealFromLeftInternal (n left : Node PageId) :
    Except Exn (Node PageId × Node PageId × Bytes × PageId) :=
  match left.cells.getLast? with
  | none => .error (.assertion "slot < hdr().num_keys")
  | some (stolenKey, stolenChild) =>
    let oldFc := n.hdr.firstChild
    let n := { n with hdr := { n.hdr with firstChild := stolenChild } }
    match n.place 0 stolenKey oldFc with
    | (true, n) => .ok (n, left.removeCell (left.numKeys - 1), stolenKey, stolenChild)
    | (false, _) => .error (.assertion "!is_full(payload)")

/-- `steal_from_right` of a leaf: the node, its right sibling and the new separator. -/
def stealFromRightLeaf (n right : Node Bytes) :
    Except Exn (Node Bytes × Node Bytes × Bytes) := do
  let k ← right.keyAt 0
  let v ← right.valueAt 0
  match n.insertLeafCell k v with
  | (true, n) =>
    let right := right.removeCell 0
    let sep ← right.keyAt 0
    return (n, right, sep)
  | (false, _) => throw (.assertion "ok")

/-- `steal_from_right` of an internal node. -/
def stealFromRightInternal (n right : Node PageId) :
    Except Exn (Node PageId × Node PageId × Bytes × PageId) := do
  let stolenKey ← right.keyAt 0
  let stolenChild := right.hdr.firstChild
  let firstChild ← right.valueAt 0
  let right := right.removeCell 0
  match n.insertSeparator stolenKey stolenChild with
  | (true, n) =>
    return (n, { right with hdr := { right.hdr with firstChild } }, stolenKey, stolenChild)
  | (false, _) => throw (.assertion "ok")

end Node

/-! ## Pages -/

/-- The data of a page, by its type. -/
inductive Content
  /-- `INVALID`: a zeroed page. -/
  | zero
  /-- `DB_HEADER`: page 0. -/
  | header (h : DbHeader)
  /-- `BTREE_LEAF` -/
  | leaf (n : Node Bytes)
  /-- `BTREE_INTERNAL` -/
  | internal (n : Node PageId)

instance : PageData Content where
  zero := .zero
  dbHeader := .header PageData.dbHeader
  freePages
    | .header h => h.freePages
    | _ => []
  setFreePages free
    | .header h => .header { h with freePages := free }
    | c => c
  rootId
    | .header h => h.rootId
    | _ => 0
  setRootId id
    | .header h => .header { h with rootId := id }
    | c => c

end KeyVDB
