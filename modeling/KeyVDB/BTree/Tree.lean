import KeyVDB.BTree.Node
import KeyVDB.Storage.BufferPool

/-!
# The B+Tree

`btree.{h,cpp}` and the parts of `node.cpp` that go through the pool. The code is written against
`PageStore`, the calls it makes of the buffer pool and of the free list, with a `Page*` as an
opaque pointer. Breadcrumbs are a stack, the innermost page first.
-/

namespace KeyVDB

/-- What the tree calls of the pool and the free list. -/
class PageStore (σ : Type) (Ptr : outParam Type) where
  fetchPage : PageId → CallM Exn σ (Option Ptr)
  newPage : CallM Exn σ (Option (PageId × Ptr))
  unpinPage : PageId → Bool → CallM Exn σ Unit
  deletePage : PageId → CallM Exn σ Unit
  setRootPageId : PageId → CallM Exn σ Unit
  numPages : σ → Nat
  page : σ → Ptr → Page Content  -- `*ptr`
  setPage : σ → Ptr → Page Content → σ

instance : PageStore (BufferPool Content) FrameId where
  fetchPage := BufferPool.fetchPage
  newPage := BufferPool.newPage
  unpinPage := BufferPool.unpinPage
  deletePage := BufferPool.deletePage
  setRootPageId id := BufferPool.onDisk (Disk.setRootPageId id)
  numPages p := p.disk.numPages
  page p f := (p.frames f).page
  setPage p f page := p.setFrame f { p.frames f with page }

/-- `class BTree`, with the pool and the free list it works on. -/
structure BTree (σ : Type) where
  store : σ
  rootPageId : PageId := INVALID_PAGE_ID

abbrev BTreeM (σ : Type) := CallM Exn (BTree σ)

/-- `class Node`: a view of a page as a leaf or an internal node. -/
inductive AnyNode
  | leaf (n : Node Bytes)
  | internal (n : Node PageId)

namespace AnyNode

def content : AnyNode → Content
  | .leaf n => .leaf n
  | .internal n => .internal n

def mapHdr (f : NodeHeader → NodeHeader) : AnyNode → AnyNode
  | .leaf n => .leaf { n with hdr := f n.hdr }
  | .internal n => .internal { n with hdr := f n.hdr }

def underflow : AnyNode → Bool
  | .leaf n => n.underflow
  | .internal n => n.underflow

end AnyNode

namespace BTree

variable {σ Ptr α : Type} [PageStore σ Ptr]

/-! ## Pages and nodes -/

def onStore (x : CallM Exn σ α) : BTreeM σ α := onPart BTree.store (fun store t => { t with store }) x

/-- `fetch_page` and the assertion on its result. -/
def fetch (id : PageId) (cond : String) : BTreeM σ Ptr := do
  match ← onStore (PageStore.fetchPage id) with
  | some p => return p
  | none => throw (.assertion cond)

def unpin (id : PageId) (dirty : Bool) : BTreeM σ Unit := onStore (PageStore.unpinPage id dirty)

def readPage (p : Ptr) : BTreeM σ (Page Content) := do return PageStore.page (← get).store p

def writePage (p : Ptr) (page : Page Content) : BTreeM σ Unit :=
  modify fun t => { t with store := PageStore.setPage t.store p page }

def writeData (p : Ptr) (data : Content) : BTreeM σ Unit := do
  writePage p { ← readPage p with data }

/-- The constructor of `Node`. -/
def node (p : Ptr) : BTreeM σ AnyNode := do
  match (← readPage p).data with
  | .leaf n => return .leaf n
  | .internal n => return .internal n
  | _ => throw (.assertion ("page_->page_type() == PageType::BTREE_LEAF || " ++
      "page_->page_type() == PageType::BTREE_INTERNAL"))

/-- A node on which leaf operations are called. -/
def leafNode (p : Ptr) : BTreeM σ (Node Bytes) := do
  match ← node p with
  | .leaf n => return n
  | .internal _ => throw (.assertion "is_leaf()")

/-- A node on which operations of internal nodes are called. -/
def internalNode (p : Ptr) : BTreeM σ (Node PageId) := do
  match ← node p with
  | .leaf _ => throw (.assertion "!is_leaf()")
  | .internal n => return n

def setHdr (p : Ptr) (f : NodeHeader → NodeHeader) : BTreeM σ Unit := do
  let n ← node p
  writeData p (n.mapHdr f).content

/-- A page is fetched, its header changed, and unpinned. -/
def updateHdr (id : PageId) (cond : String) (f : NodeHeader → NodeHeader) : BTreeM σ Unit := do
  let p ← fetch id cond
  setHdr p f
  unpin id true

def initLeaf (p : Ptr) (id parentId : PageId) : BTreeM σ Unit :=
  writePage p { pageId := id, data := .leaf (Node.init parentId) }

def initInternal (p : Ptr) (id parentId : PageId) : BTreeM σ Unit :=
  writePage p { pageId := id, data := .internal (Node.init parentId) }

/-- The same for a page id that may be `INVALID_PAGE_ID`. -/
def updateHdrIfAny (id : PageId) (cond : String) (f : NodeHeader → NodeHeader) : BTreeM σ Unit :=
  if id = INVALID_PAGE_ID then pure () else updateHdr id cond f

/-- The parent of a child is set, if there is a child. -/
def reparent (parentId child : PageId) : BTreeM σ Unit :=
  updateHdrIfAny child "cp != nullptr" fun h => { h with parentId }

def reparentAll (parentId : PageId) : List PageId → BTreeM σ Unit
  | [] => pure ()
  | child :: rest => do
    reparent parentId child
    reparentAll parentId rest

/-! ## Construction and lookup -/

def persistRoot : BTreeM σ Unit := do
  onStore (PageStore.setRootPageId (← get).rootPageId)

/-- `root_page_id_` is set and persisted. -/
def setRoot (id : PageId) : BTreeM σ Unit := do
  modify fun t => { t with rootPageId := id }
  persistRoot

def create : BTreeM σ Unit := do
  match ← onStore PageStore.newPage with
  | none => throw (.runtimeError "BTree::create: buffer pool exhausted")
  | some (rootId, rootPage) =>
    initLeaf rootPage rootId INVALID_PAGE_ID
    unpin rootId true
    setRoot rootId

/-- The loop of `find_leaf`. It only reads, so a descent that visits more pages than there are
never ends. -/
def descend (key : Bytes) : Nat → PageId → List PageId → BTreeM σ (Ptr × List PageId)
  | 0, _, _ => throw .diverges
  | fuel + 1, cur, breadcrumbs => do
    let page ← fetch cur "page != nullptr && \"find_leaf: buffer pool exhausted or bad page_id\""
    match ← node page with
    | .leaf _ => return (page, breadcrumbs)
    | .internal n =>
      unpin cur false
      descend key fuel (n.childFor key) (cur :: breadcrumbs)

def findLeaf (key : Bytes) : BTreeM σ (Ptr × List PageId) := do
  let t ← get
  descend key (PageStore.numPages t.store + 1) t.rootPageId []

def get (key : Bytes) : BTreeM σ (Option Bytes) := do
  let (leafPage, _) ← findLeaf key
  let leafId := (← readPage leafPage).pageId
  let leaf ← leafNode leafPage
  let result := match leaf.cells[lowerBound leaf.cells key]? with
    | some (k, value) => if k = key then some value else none
    | none => none
  unpin leafId false
  return result

/-! ## Insertion -/

def createNewRoot (leftId : PageId) (sepKey : Bytes) (rightId : PageId) : BTreeM σ Unit := do
  match ← onStore PageStore.newPage with
  | none => throw (.assertion "new_root_page != nullptr && \"pool exhausted during root creation\"")
  | some (newRootId, newRootPage) =>
    initInternal newRootPage newRootId INVALID_PAGE_ID
    setHdr newRootPage fun h => { h with firstChild := leftId }
    let newRoot ← internalNode newRootPage
    match newRoot.insertSeparator sepKey rightId with
    | (false, _) => throw (.assertion "ok")
    | (true, n) =>
      writeData newRootPage (.internal n)
      unpin newRootId true
      updateHdr leftId "lp != nullptr" fun h => { h with parentId := newRootId }
      updateHdr rightId "rp != nullptr" fun h => { h with parentId := newRootId }
      setRoot newRootId

/-- A separator is put into an internal node that must have room, and its child gets the node
as its parent. -/
def addSeparator (p : Ptr) (id : PageId) (sepKey : Bytes) (rightId : PageId) (room cond : String) :
    BTreeM σ Unit := do
  let n ← internalNode p
  match n.insertSeparator sepKey rightId with
  | (false, _) => throw (.assertion room)
  | (true, n) =>
    writeData p (.internal n)
    updateHdr rightId cond fun h => { h with parentId := id }

/-- The split of a full parent: the page of the right half and the promoted key. -/
def splitParent (parentPage : Ptr) (parentId : PageId) (sepKey : Bytes) (rightId : PageId) :
    BTreeM σ (PageId × Bytes) := do
  let parent ← internalNode parentPage
  match ← onStore PageStore.newPage with
  | none =>
    throw (.assertion "parent_right_page != nullptr && \"pool exhausted during parent split\"")
  | some (parentRightId, parentRightPage) =>
    initInternal parentRightPage parentRightId parent.hdr.parentId
    let parentRight ← internalNode parentRightPage
    let (parent, parentRight, parentSep) ← ofExcept (parent.splitInternal parentRight)
    writeData parentPage (.internal parent)
    writeData parentRightPage (.internal parentRight)
    let (halfPage, halfId, room) :=
      if sepKey < parentSep then
        (parentPage, parentId, "ok && \"left half should have room after split\"")
      else (parentRightPage, parentRightId, "ok && \"right half should have room after split\"")
    addSeparator halfPage halfId sepKey rightId room "page_ != nullptr"
    let parentRight ← internalNode parentRightPage
    reparentAll parentRightId (parentRight.hdr.firstChild :: parentRight.cells.map Prod.snd)
    unpin parentId true
    unpin parentRightId true
    return (parentRightId, parentSep)

def insertIntoParent (leftId : PageId) (sepKey : Bytes) (rightId : PageId) :
    List PageId → BTreeM σ Unit
  | [] => createNewRoot leftId sepKey rightId
  | parentId :: breadcrumbs => do
    let parentPage ← fetch parentId "parent_page != nullptr"
    let parent ← internalNode parentPage
    if parent.isFull (internalCellSize sepKey.length) then
      writeData parentPage (.internal parent.compact)
      if parent.compact.isFull (internalCellSize sepKey.length) then
        let (parentRightId, parentSep) ← splitParent parentPage parentId sepKey rightId
        insertIntoParent parentId parentSep parentRightId breadcrumbs
      else
        addSeparator parentPage parentId sepKey rightId "ok" "rp != nullptr"
        unpin parentId true
    else
      addSeparator parentPage parentId sepKey rightId "ok" "rp != nullptr"
      unpin parentId true

/-- The split of a full leaf: the page of the right half and the separator. -/
def splitLeafPage (leafPage : Ptr) (leafId : PageId) (key value : Bytes) :
    BTreeM σ (PageId × Bytes) := do
  let leaf ← leafNode leafPage
  match ← onStore PageStore.newPage with
  | none =>
    unpin leafId false
    throw (.runtimeError "BTree::insert: buffer pool exhausted (split)")
  | some (rightId, rightPage) =>
    initLeaf rightPage rightId leaf.hdr.parentId
    let right ← leafNode rightPage
    let oldRightSib := leaf.hdr.rightSibling
    let (leaf, right, sepKey) ← ofExcept (leaf.splitLeaf right leafId rightId)
    writeData leafPage (.leaf leaf)
    writeData rightPage (.leaf right)
    updateHdrIfAny oldRightSib "ors != nullptr" fun h => { h with leftSibling := rightId }
    -- what `insert_leaf_cell` returns is not looked at
    let half := if key < sepKey then leafPage else rightPage
    writeData half (.leaf ((← leafNode half).insertLeafCell key value).2)
    unpin leafId true
    unpin rightId true
    return (rightId, sepKey)

def insert (key value : Bytes) : BTreeM σ Unit :=
  if Fits key value then do
    let (leafPage, breadcrumbs) ← findLeaf key
    let leafId := (← readPage leafPage).pageId
    let leaf ← leafNode leafPage
    let (ok, leaf) := leaf.insertLeafCell key value
    writeData leafPage (.leaf leaf)
    if ok then unpin leafId true
    else
      let (rightId, sepKey) ← splitLeafPage leafPage leafId key value
      insertIntoParent leafId sepKey rightId breadcrumbs
  else throw (tooLarge key value)

/-! ## Removal -/

/-- The root goes, and a child of it takes its place. -/
def collapseInto (newRoot oldRoot : PageId) (cond : String) : BTreeM σ Unit := do
  updateHdr newRoot cond fun h => { h with parentId := INVALID_PAGE_ID }
  onStore (PageStore.deletePage oldRoot)
  setRoot newRoot

/-- The root of `fix_underflow`: an internal root without separators is replaced by its child. -/
def fixRoot (pageId : PageId) : BTreeM σ Unit := do
  let rp ← fetch pageId "rp != nullptr"
  match (← readPage rp).data with
  | .internal root =>
    if root.numKeys = 0 then
      unpin pageId false
      if root.hdr.firstChild ≠ INVALID_PAGE_ID then
        collapseInto root.hdr.firstChild pageId "nrp != nullptr"
    else unpin pageId false
  | _ => unpin pageId false

/-- Where a child stands in its parent: the slot `sep_slot` and the two siblings. -/
structure Position where
  sepSlot : Nat
  leftSib : PageId
  rightSib : PageId

def position (parent : Node PageId) (pageId : PageId) : Except Exn Position :=
  if parent.hdr.firstChild = pageId then do
    let rightSib ← parent.valueAt 0
    return { sepSlot := 0, leftSib := INVALID_PAGE_ID, rightSib }
  else
    match parent.cells.findIdx? fun c => c.2 = pageId with
    | none => .error (.assertion "sep_slot >= 0 && \"fix_underflow: page_id not found in parent\"")
    | some i => .ok
      { sepSlot := i
        leftSib := if i = 0 then parent.hdr.firstChild
          else ((parent.cells[i - 1]?).map Prod.snd).getD INVALID_PAGE_ID
        rightSib := ((parent.cells[i + 1]?).map Prod.snd).getD INVALID_PAGE_ID }

/-- The slot of the separator in a merge with the left sibling, for which the page is searched a second
time. -/
def leftMergeSlot (parent : Node PageId) (leftSib pageId : PageId) : Nat :=
  if parent.hdr.firstChild = leftSib then 0
  else (parent.cells.findIdx? fun c => c.2 = pageId).getD 0

/-- The separator in a slot is replaced, in place if the lengths agree. -/
def replaceSeparator (parent : Node PageId) (slot : Nat) (newSep : Bytes) :
    Except Exn (Node PageId) := do
  let old ← parent.keyAt slot
  if old.length = newSep.length then parent.updateSeparatorKey slot newSep
  else
    let rightChild ← parent.valueAt slot
    match (parent.removeCell slot).insertSeparator newSep rightChild with
    | (true, n) => return n
    | (false, _) => throw (.assertion "ok")

/-- `steal_from_left`; the new separator. -/
def stealFromLeft (curPage leftPage : Ptr) : BTreeM σ Bytes := do
  match ← node curPage, ← node leftPage with
  | .leaf cur, .leaf left =>
    let (cur, left, newSep) ← ofExcept (cur.stealFromLeftLeaf left)
    writeData leftPage (.leaf left)
    writeData curPage (.leaf cur)
    return newSep
  | .internal cur, .internal left =>
    let (cur, left, newSep, stolenChild) ← ofExcept (cur.stealFromLeftInternal left)
    writeData leftPage (.internal left)
    writeData curPage (.internal cur)
    reparent (← readPage curPage).pageId stolenChild
    return newSep
  | .leaf _, .internal _ => throw (.assertion "is_leaf()")
  | .internal _, .leaf _ => throw (.assertion "!is_leaf()")

/-- `steal_from_right`; the new separator. -/
def stealFromRight (curPage rightPage : Ptr) : BTreeM σ Bytes := do
  match ← node curPage, ← node rightPage with
  | .leaf cur, .leaf right =>
    let (cur, right, newSep) ← ofExcept (cur.stealFromRightLeaf right)
    writeData rightPage (.leaf right)
    writeData curPage (.leaf cur)
    return newSep
  | .internal cur, .internal right =>
    let (cur, right, newSep, stolenChild) ← ofExcept (cur.stealFromRightInternal right)
    writeData rightPage (.internal right)
    writeData curPage (.internal cur)
    reparent (← readPage curPage).pageId stolenChild
    return newSep
  | .leaf _, .internal _ => throw (.assertion "is_leaf()")
  | .internal _, .leaf _ => throw (.assertion "!is_leaf()")

/-- One of the two borrowing steps of `fix_underflow`, given how to steal; whether it was taken. -/
def borrow (steal : Ptr → Ptr → BTreeM σ Bytes) (parentPage : Ptr) (parentId pageId sib : PageId)
    (sepSlot : Nat) (cond : String) : BTreeM σ Bool := do
  if sib = INVALID_PAGE_ID then return false
  let sibPage ← fetch sib cond
  if (← node sibPage).underflow then
    unpin sib false
    return false
  let curPage ← fetch pageId "cur_page != nullptr"
  let newSep ← steal curPage sibPage
  let parent ← internalNode parentPage
  let parent ← ofExcept (replaceSeparator parent sepSlot newSep)
  writeData parentPage (.internal parent)
  unpin pageId true
  unpin sib true
  unpin parentId true
  return true

/-- `merge_from` on the two pages. -/
def mergeFrom (leftPage rightPage : Ptr) (sep : Bytes) : BTreeM σ Unit := do
  match ← node leftPage, ← node rightPage with
  | .leaf left, .leaf right =>
    let left ← ofExcept (left.mergeLeaf right)
    writeData leftPage (.leaf left)
  | .internal left, .internal right =>
    let left ← ofExcept (left.mergeInternal right sep)
    writeData leftPage (.internal left)
    let leftId := (← readPage leftPage).pageId
    -- right's first child is visited a second time at the end
    reparentAll leftId (right.hdr.firstChild :: right.cells.map Prod.snd ++ [right.hdr.firstChild])
  | .leaf _, .internal _ => throw (.assertion "is_leaf()")
  | .internal _, .leaf _ => throw (.assertion "!is_leaf()")

/-- The right neighbour of a merged leaf gets the leaf as its left sibling. -/
def relinkRight (leftPage : Ptr) (leftId : PageId) : BTreeM σ Unit := do
  match ← node leftPage with
  | .leaf left =>
    updateHdrIfAny left.hdr.rightSibling "rrs != nullptr" fun h => { h with leftSibling := leftId }
  | .internal _ => pure ()

/-- The merge of two pages whose separator is in the slot `sepSlot`; the right page is deleted.
Whether the parent must be repaired as well; an empty root is replaced by the merged page. -/
def mergePages (parentPage : Ptr) (parentId leftId rightId : PageId) (sepSlot : Nat) :
    BTreeM σ Bool := do
  let leftPage ← fetch leftId "lp && rp"
  let rightPage ← fetch rightId "lp && rp"
  let parent ← internalNode parentPage
  let sep ← ofExcept (parent.keyAt sepSlot)
  mergeFrom leftPage rightPage sep
  relinkRight leftPage leftId
  let parent := (← internalNode parentPage).removeCell sepSlot
  writeData parentPage (.internal parent)
  unpin leftId true
  unpin rightId true
  onStore (PageStore.deletePage rightId)
  let rootId := (← getThe (BTree σ)).rootPageId
  unpin parentId true
  if parent.underflow ∧ parentId ≠ rootId then return true
  else if parent.numKeys = 0 ∧ parentId = rootId then
    collapseInto leftId parentId "np != nullptr"
    return false
  else return false

def fixUnderflow (pageId : PageId) : List PageId → BTreeM σ Unit
  | [] => fixRoot pageId
  | parentId :: breadcrumbs => do
    let parentPage ← fetch parentId "parent_page != nullptr"
    let parent ← internalNode parentPage
    let pos ← ofExcept (position parent pageId)
    if ← borrow stealFromLeft parentPage parentId pageId pos.leftSib pos.sepSlot "lp != nullptr" then
      return
    -- `sep_slot` is the slot of the page itself, also where the page is merged with its right sibling
    if ← borrow stealFromRight parentPage parentId pageId pos.rightSib pos.sepSlot "rp != nullptr" then
      return
    if pos.rightSib ≠ INVALID_PAGE_ID then
      if ← mergePages parentPage parentId pageId pos.rightSib pos.sepSlot then
        fixUnderflow parentId breadcrumbs
    else if pos.leftSib ≠ INVALID_PAGE_ID then
      let sepSlot := leftMergeSlot parent pos.leftSib pageId
      if ← mergePages parentPage parentId pos.leftSib pageId sepSlot then
        fixUnderflow parentId breadcrumbs
    else unpin parentId false

def remove (key : Bytes) : BTreeM σ Bool := do
  let (leafPage, breadcrumbs) ← findLeaf key
  let leafId := (← readPage leafPage).pageId
  let leaf ← leafNode leafPage
  let slot := lowerBound leaf.cells key
  if (leaf.cells[slot]?).any fun c => c.1 = key then
    let leaf := leaf.removeCell slot
    writeData leafPage (.leaf leaf)
    let rootId := (← getThe (BTree σ)).rootPageId
    unpin leafId true
    if leaf.underflow ∧ leafId ≠ rootId then
      fixUnderflow leafId breadcrumbs
      return true
    else return true
  else
    unpin leafId false
    return false

end BTree

end KeyVDB
