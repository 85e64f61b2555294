import KeyVDB.BTree.Node
import KeyVDB.Storage.RawPage

/-!
# Slotted pages as bytes

The operations of `node.cpp` on the data area of a page, where the header, the slot array and the
cells share one array of bytes: the header's fields are words at fixed offsets, a slot is the 16-bit
offset of its cell, and a cell is a key with its length followed by what the type of the page
asks for. Every field is written through its 16 bits, so an offset or a length that does not fit
would wrap here as it does there.

`Node` is the same code with a list in place of the bytes; `NodeRefine` relates the two.
-/

namespace KeyVDB

/-! ## Cells -/

/-- How the part of a cell after its key is stored. -/
class CellCodec (α : Type) [CellValue α] where
  /-- The type of the pages with such cells: a leaf or not. -/
  leaf : Bool
  /-- The assertion with which the accessors check it. -/
  check : String
  bytes : α → Bytes
  read : Buffer DATA_SIZE → Nat → α
  /-- The value fits its fields. -/
  Storable : α → Prop
  cellSize_eq : ∀ (key : Bytes) (a : α), cellSize key a = 2 + (key.length + (bytes a).length)
  read_eq : ∀ {a : α} {b : Buffer DATA_SIZE} {off : Nat}, Storable a →
    b.readAt off (bytes a).length = bytes a → read b off = a

theorem cellSize_bytes (key v : Bytes) :
    cellSize key v = 2 + (key.length + (leBytes 2 v.length ++ v).length) := by
  simp only [cellSize, leafCellSize, List.length_append, length_leBytes]
  omega

/-- The value of a leaf cell, with its length. -/
instance : CellCodec Bytes where
  leaf := true
  check := "is_leaf()"
  bytes v := leBytes 2 v.length ++ v
  read b off := b.readAt (off + 2) (b.word 2 off)
  Storable v := v.length < 2 ^ 16
  cellSize_eq := cellSize_bytes
  read_eq {v b off} hv h := by
    obtain ⟨hlen, hv'⟩ := Buffer.readAt_append h
    rw [length_leBytes] at hlen hv'
    rw [Buffer.word, hlen, leNat_leBytes_of_lt hv, hv']

/-- The child of an internal cell. -/
instance : CellCodec PageId where
  leaf := false
  check := "!is_leaf()"
  bytes := intBytes 4
  read b off := b.int 4 off
  Storable := InWord 4
  cellSize_eq key c := by
    simp only [cellSize, internalCellSize, length_intBytes]
    omega
  read_eq {c b off} hc h := by
    rw [length_intBytes] at h
    rw [Buffer.int, h, leInt_intBytes hc]

/-- A cell as `write_leaf_cell` and `write_internal_cell` copy it into the heap. -/
def cellBytes {α : Type} [CellValue α] [CellCodec α] (key : Bytes) (a : α) : Bytes :=
  leBytes 2 key.length ++ (key ++ CellCodec.bytes a)

namespace RawPage

/-! ## The header and the slots -/

def numKeys (p : RawPage) : Nat := p.data.word 2 0

def freeEnd (p : RawPage) : Nat := p.data.word 2 2

def cellEnd (p : RawPage) : Nat := p.data.word 2 4

/-- The page ids of the header. -/
def hdr (p : RawPage) : NodeHeader where
  parentId := p.data.int 4 8
  rightSibling := p.data.int 4 12
  leftSibling := p.data.int 4 16
  firstChild := p.data.int 4 20

def isLeaf (p : RawPage) : Bool := p.pageType = .BTREE_LEAF

/-- Where a slot is. -/
def slotOffset (slot : Nat) : Nat := SLOT_ARRAY_START + SLOT_SIZE * slot

/-- `slots()[slot]`. -/
def slotAt (p : RawPage) (slot : Nat) : Nat := p.data.word 2 (slotOffset slot)

/-- The header that `init_leaf` and `init_internal` copy onto a zeroed page. -/
def initHeader (parentId : PageId) : Buffer DATA_SIZE :=
  ((((((Buffer.zero.setWord 2 2 SLOT_ARRAY_START).setWord 2 4 NODE_DATA_SIZE).setInt 4 8
    parentId).setInt 4 12 INVALID_PAGE_ID).setInt 4 16 INVALID_PAGE_ID).setInt 4 20
    INVALID_PAGE_ID)

def initLeaf (parentId : PageId) : RawPage :=
  { zero with pageType := .BTREE_LEAF, data := initHeader parentId }

def initInternal (parentId : PageId) : RawPage :=
  { zero with pageType := .BTREE_INTERNAL, data := initHeader parentId }

/-! ## Capacity -/

def freeSpace (p : RawPage) : Except Exn Nat :=
  if p.freeEnd ≤ p.cellEnd then .ok (p.cellEnd - p.freeEnd)
  else .error (.assertion "h.cell_end >= h.free_end")

def isFull (p : RawPage) (newCellBytes : Nat) : Except Exn Bool := do
  let space ← p.freeSpace
  return decide (space < totalCellCost newCellBytes)

/-! ## Reading cells -/

def keyAt (p : RawPage) (slot : Nat) : Except Exn Bytes :=
  if slot < p.numKeys then
    .ok (p.data.readAt (p.slotAt slot + 2) (p.data.word 2 (p.slotAt slot)))
  else .error (.assertion "slot < hdr().num_keys")

/-- What `value_at` and `child_at` share: past the key comes what the cell holds. -/
def payloadAt (α : Type) [CellValue α] [CellCodec α] (p : RawPage) (slot : Nat) : Except Exn α :=
  if p.isLeaf = CellCodec.leaf α then
    if slot < p.numKeys then
      .ok (CellCodec.read p.data (p.slotAt slot + 2 + p.data.word 2 (p.slotAt slot)))
    else .error (.assertion "slot < hdr().num_keys")
  else .error (.assertion (CellCodec.check α))

def valueAt (p : RawPage) (slot : Nat) : Except Exn Bytes := p.payloadAt Bytes slot

def childAt (p : RawPage) (slot : Nat) : Except Exn PageId := p.payloadAt PageId slot

/-- The loop of `lower_bound`. -/
def lowerBoundIn (p : RawPage) (key : Bytes) : Nat → Nat → Nat → Except Exn Nat
  | 0, lo, _ => .ok lo
  | fuel + 1, lo, hi =>
    if lo < hi then do
      let mid := (lo + (hi - lo) / 2) % 2 ^ 16
      let k ← p.keyAt mid
      if k < key then lowerBoundIn p key fuel ((mid + 1) % 2 ^ 16) hi
      else lowerBoundIn p key fuel lo mid
    else .ok lo

def lowerBound (p : RawPage) (key : Bytes) : Except Exn Nat :=
  p.lowerBoundIn key p.numKeys 0 p.numKeys

/-! ## Changing cells -/

def shiftSlotsRight (d : Buffer DATA_SIZE) (fromSlot : Nat) : Buffer DATA_SIZE :=
  d.shiftUp 2 SLOT_ARRAY_START fromSlot (d.word 2 0)

def shiftSlotsLeft (d : Buffer DATA_SIZE) (fromSlot : Nat) : Buffer DATA_SIZE :=
  d.shiftDown 2 SLOT_ARRAY_START (d.word 2 0 - (fromSlot + 1)) fromSlot

/-- A cell is carved off the heap, then its slot is put in. -/
def putCell (d : Buffer DATA_SIZE) (insertSlot payload : Nat) (cell : Bytes) : Buffer DATA_SIZE :=
  let d := d.setWord 2 4 (d.word 2 4 - payload)
  let cellOff := d.word 2 4
  let d := d.writeAt cellOff cell
  let d := shiftSlotsRight d insertSlot
  let d := d.setWord 2 (slotOffset insertSlot) cellOff
  let d := d.setWord 2 2 (d.word 2 2 + SLOT_SIZE)
  d.setWord 2 0 (d.word 2 0 + 1)

/-- What `write_leaf_cell` and `write_internal_cell` share. -/
def writeCell {α : Type} [CellValue α] [CellCodec α] (p : RawPage) (insertSlot : Nat) (key : Bytes)
    (a : α) : Except Exn RawPage := do
  if ← p.isFull (cellSize key a) then throw (.assertion "!is_full(payload)")
  return { p with data := putCell p.data insertSlot (cellSize key a) (cellBytes key a) }

def writeLeafCell (p : RawPage) (insertSlot : Nat) (key value : Bytes) : Except Exn RawPage :=
  p.writeCell insertSlot key value

def writeInternalCell (p : RawPage) (insertSlot : Nat) (key : Bytes) (rightChild : PageId) :
    Except Exn RawPage :=
  p.writeCell insertSlot key rightChild

/-- `page_->clear()`, then what `compact` restores: the type of the page and the header, with the
counters of an empty node. -/
def cleared (p : RawPage) : RawPage :=
  { zero with
    pageType := p.pageType
    data := (((Buffer.zero.writeAt 0 (p.data.readAt 0 NODE_HEADER_SIZE)).setWord 2 0 0).setWord 2 2
      SLOT_ARRAY_START).setWord 2 4 NODE_DATA_SIZE }

/-- The live cells in slot order. -/
def liveCells (α : Type) [CellValue α] [CellCodec α] (p : RawPage) :
    Nat → Nat → Except Exn (List (Bytes × α))
  | 0, _ => .ok []
  | k + 1, i => do
    let key ← p.keyAt i
    let a ← p.payloadAt α i
    let cells ← liveCells α p k (i + 1)
    return (key, a) :: cells

/-- The cells written again behind those that are there. -/
def writeCells {α : Type} [CellValue α] [CellCodec α] :
    RawPage → List (Bytes × α) → Except Exn RawPage
  | p, [] => .ok p
  | p, c :: cells => do
    let p ← p.writeCell p.numKeys c.1 c.2
    writeCells p cells

/-- `compact`, for pages with one type of cells. -/
def rebuild (α : Type) [CellValue α] [CellCodec α] (p : RawPage) : Except Exn RawPage := do
  let cells ← p.liveCells α p.numKeys 0
  writeCells p.cleared cells

def compact (p : RawPage) : Except Exn RawPage :=
  if p.numKeys = 0 then .ok { p with data := p.data.setWord 2 4 NODE_DATA_SIZE }
  else if p.isLeaf then p.rebuild Bytes
  else p.rebuild PageId

/-- A slot is taken out. -/
def dropSlot (d : Buffer DATA_SIZE) (slot : Nat) : Buffer DATA_SIZE :=
  let d := shiftSlotsLeft d slot
  let d := d.setWord 2 0 (d.word 2 0 - 1)
  d.setWord 2 2 (d.word 2 2 - SLOT_SIZE)

def removeCell (p : RawPage) (slot : Nat) : Except Exn RawPage :=
  if slot < p.numKeys then .ok { p with data := dropSlot p.data slot }
  else .error (.assertion "slot < hdr().num_keys")

/-- The end of `insert_leaf_cell` and `insert_separator`. -/
def place {α : Type} [CellValue α] [CellCodec α] (p : RawPage) (slot : Nat) (key : Bytes) (a : α) :
    Except Exn (Bool × RawPage) := do
  let p ← if ← p.isFull (cellSize key a) then p.compact else pure p
  if ← p.isFull (cellSize key a) then return (false, p)
  let p ← p.writeCell slot key a
  return (true, p)

def insertLeafCell (p : RawPage) (key value : Bytes) : Except Exn (Bool × RawPage) := do
  if ¬ p.isLeaf then throw (.assertion "is_leaf()")
  let slot ← p.lowerBound key
  if slot < p.numKeys then
    if (← p.keyAt slot) = key then
      let oldVal ← p.valueAt slot
      if oldVal.length = value.length then
        let vptr := p.slotAt slot + 2 + p.data.word 2 (p.slotAt slot) + 2
        return (true, { p with data := p.data.writeAt vptr value })
      let p ← p.removeCell slot
      let slot ← p.lowerBound key
      return ← p.place slot key value
  p.place slot key value

def insertSeparator (p : RawPage) (key : Bytes) (rightChild : PageId) :
    Except Exn (Bool × RawPage) := do
  if p.isLeaf then throw (.assertion "!is_leaf()")
  let slot ← p.lowerBound key
  p.place slot key rightChild

def updateSeparatorKey (p : RawPage) (slot : Nat) (newKey : Bytes) : Except Exn RawPage := do
  if p.isLeaf then throw (.assertion "!is_leaf()")
  if ¬ slot < p.numKeys then throw (.assertion "slot < hdr().num_keys")
  if (← p.keyAt slot).length ≠ newKey.length then
    throw (.assertion "key_at(slot).size() == new_key.size()")
  let d := p.data.setWord 2 (p.slotAt slot) newKey.length
  return { p with data := d.writeAt (p.slotAt slot + 2) newKey }

def updateChildAt (p : RawPage) (slot : Nat) (childId : PageId) : Except Exn RawPage := do
  if p.isLeaf then throw (.assertion "!is_leaf()")
  if ¬ slot < p.numKeys then throw (.assertion "slot < hdr().num_keys")
  let off := p.slotAt slot
  return { p with data := p.data.setInt 4 (off + 2 + p.data.word 2 off) childId }

/-- What `steal_from_left` does by hand on an internal node: a cell at slot 0. -/
def pushFront (p : RawPage) (key : Bytes) (child : PageId) : Except Exn RawPage := do
  match ← p.place 0 key child with
  | (true, p) => return p
  | (false, _) => throw (.assertion "!is_full(payload)")

/-! ## The page ids of the header -/

inductive HdrField
  | parentId
  | rightSibling
  | leftSibling
  | firstChild

/-- Where the field is. -/
def HdrField.offset : HdrField → Nat
  | parentId => 8
  | rightSibling => 12
  | leftSibling => 16
  | firstChild => 20

/-- A page id is written into the header. -/
def setHdrId (p : RawPage) (field : HdrField) (id : PageId) : RawPage :=
  { p with data := p.data.setInt 4 field.offset id }

/-! ## Splitting -/

/-- The assertions with which `split_into` starts. -/
def splitCheck (p right : RawPage) : Except Exn Unit :=
  if p.numKeys < 2 then
    .error (.assertion "n >= 2 && \"cannot split a node with fewer than 2 keys\"")
  else if right.numKeys ≠ 0 then
    .error (.assertion "right.hdr().num_keys == 0 && \"right node must be empty\"")
  else .ok ()

/-- The bytes of a leaf cell with its slot. -/
def leafCellBytes (p : RawPage) (i : Nat) : Except Exn Nat := do
  let key ← p.keyAt i
  let value ← p.valueAt i
  return leafCellSize key.length value.length + SLOT_SIZE

/-- The bytes of an internal cell with its slot. -/
def internalCellBytes (p : RawPage) (i : Nat) : Except Exn Nat := do
  let key ← p.keyAt i
  return internalCellSize key.length + SLOT_SIZE

/-- The walk over the `k` slots from `i` on, until the bytes passed are more than half. -/
def splitScan (cellBytesAt : Nat → Except Exn Nat) (half : Nat) : Nat → Nat → Nat → Except Exn Nat
  | 0, i, _ => .ok i
  | k + 1, i, acc => do
    let bytes ← cellBytesAt i
    if half < acc + bytes ∧ 0 < i then return i
    splitScan cellBytesAt half k (i + 1) (acc + bytes)

/-- A cell of the leaf `p` goes into the right node. -/
def putLeafCell (p right : RawPage) (i : Nat) : Except Exn (Bool × RawPage) := do
  right.insertLeafCell (← p.keyAt i) (← p.valueAt i)

/-- A cell of the internal node `p` goes into the right node. -/
def putSeparator (p right : RawPage) (i : Nat) : Except Exn (Bool × RawPage) := do
  right.insertSeparator (← p.keyAt i) (← p.childAt i)

/-- The `k` slots from `i` on are put one by one into the right node, which must have room. -/
def copyFrom (put : RawPage → Nat → Except Exn (Bool × RawPage)) :
    Nat → Nat → RawPage → Except Exn RawPage
  | 0, _, right => .ok right
  | k + 1, i, right => do
    match ← put right i with
    | (true, right) => copyFrom put k (i + 1) right
    | (false, _) => throw (.assertion "ok && \"right node should have room during split\"")

/-- `remove_cell` for the slots below `i` in reverse order, down to `idx`. -/
def removeDownTo (idx : Nat) : Nat → RawPage → Except Exn RawPage
  | 0, p => .ok p
  | i + 1, p =>
    if idx ≤ i then do
      let p ← p.removeCell i
      removeDownTo idx i p
    else .ok p

/-- `split_into` of a leaf: what is left, the right half and the separator. -/
def splitLeafInto (p right : RawPage) (id rightId : PageId) :
    Except Exn (RawPage × RawPage × Bytes) := do
  splitCheck p right
  let right := right.setHdrId .parentId p.hdr.parentId
  let half := (NODE_USABLE_SIZE - (← p.freeSpace)) / 2
  let splitIdx ← splitScan p.leafCellBytes half p.numKeys 0 0
  let sep ← p.keyAt splitIdx
  let right ← copyFrom p.putLeafCell (p.numKeys - splitIdx) splitIdx right
  let left ← removeDownTo splitIdx p.numKeys p
  let right := (right.setHdrId .rightSibling left.hdr.rightSibling).setHdrId .leftSibling id
  return (left.setHdrId .rightSibling rightId, right, sep)

/-- `split_into` of an internal node: the middle key is promoted. -/
def splitInternalInto (p right : RawPage) : Except Exn (RawPage × RawPage × Bytes) := do
  splitCheck p right
  let right := right.setHdrId .parentId p.hdr.parentId
  let half := (NODE_USABLE_SIZE - (← p.freeSpace)) / 2
  let mid ← splitScan p.internalCellBytes half p.numKeys 0 0
  let mid := if mid = 0 then 1 else mid
  let mid := if p.numKeys - 1 ≤ mid then p.numKeys - 1 else mid
  let sep ← p.keyAt mid
  let right := right.setHdrId .firstChild (← p.childAt mid)
  let right ← copyFrom p.putSeparator (p.numKeys - (mid + 1)) (mid + 1) right
  let left ← removeDownTo mid p.numKeys p
  return (left, right, sep)

end RawPage

end KeyVDB
