import KeyVDB.BTree.NodePages
import KeyVDB.BTree.FullHeap

/-!
# Programs over `node.h`

The interface of `node.h`, on bytes and on lists of cells. A program works on any number of pages
through the interface alone, leaves and internal pages side by side, and chooses its next call by
all the answers it has had. On the bytes it returns what it returns on the lists, and leaves pages
that hold the lists, or it fails the same assertion (`nodePrograms_agree`): so a tree that is right
about lists of cells is right about bytes. The argument does not look at the program: it is enough
that the calls agree one by one (`SameOps`).
-/

namespace KeyVDB

/-! ## The interface -/

/-- The interface of `node.h` on pages of the type `π`. -/
structure NodeOps (π : Type) where
  initLeaf : PageId → π
  initInternal : PageId → π
  isLeaf : π → Bool
  hdr : π → NodeHeader
  numKeys : π → Nat
  keyAt : π → Nat → Except Exn Bytes
  valueAt : π → Nat → Except Exn Bytes
  childAt : π → Nat → Except Exn PageId
  lowerBound : π → Bytes → Except Exn Nat
  isFull : π → Nat → Except Exn Bool
  underflow : π → Except Exn Bool
  freeSpace : π → Except Exn Nat
  setHdrId : π → RawPage.HdrField → PageId → π
  insertLeafCell : π → Bytes → Bytes → Except Exn (Bool × π)
  removeCell : π → Nat → Except Exn π
  insertSeparator : π → Bytes → PageId → Except Exn (Bool × π)
  updateSeparatorKey : π → Nat → Bytes → Except Exn π
  updateChildAt : π → Nat → PageId → Except Exn π
  splitInto : π → π → PageId → PageId → Except Exn (π × π × Bytes)
  mergeFrom : π → π → Bytes → Except Exn π
  /-- Also the child that gets a new parent, where there is one. -/
  stealFromLeft : π → π → Except Exn (π × π × Bytes × Option PageId)
  stealFromRight : π → π → Except Exn (π × π × Bytes × Option PageId)
  compact : π → Except Exn π

namespace RawPage

def splitInto (p right : RawPage) (id rightId : PageId) : Except Exn (RawPage × RawPage × Bytes) :=
  if p.isLeaf then p.splitLeafInto right id rightId else p.splitInternalInto right

def mergeFrom (p right : RawPage) (sep : Bytes) : Except Exn RawPage :=
  if p.isLeaf then p.mergeLeafFrom right else p.mergeInternalFrom right sep

def stealFromLeft (p left : RawPage) : Except Exn (RawPage × RawPage × Bytes × Option PageId) :=
  if p.isLeaf then do
    let (p, left, newSep) ← p.stealFromLeftLeaf left
    return (p, left, newSep, none)
  else do
    let (p, left, newSep, stolenChild) ← p.stealFromLeftInternal left
    return (p, left, newSep, some stolenChild)

def stealFromRight (p right : RawPage) : Except Exn (RawPage × RawPage × Bytes × Option PageId) :=
  if p.isLeaf then do
    let (p, right, newSep) ← p.stealFromRightLeaf right
    return (p, right, newSep, none)
  else do
    let (p, right, newSep, stolenChild) ← p.stealFromRightInternal right
    return (p, right, newSep, some stolenChild)

/-- On bytes. -/
def ops : NodeOps RawPage :=
  { initLeaf, initInternal, isLeaf, hdr, numKeys, keyAt, valueAt, childAt, lowerBound, isFull,
    underflow, freeSpace, setHdrId, insertLeafCell, removeCell, insertSeparator,
    updateSeparatorKey, updateChildAt, splitInto, mergeFrom, stealFromLeft, stealFromRight,
    compact }

end RawPage

/-- The assertions with which `split_into` starts, for nodes of any type. -/
def splitCheckOf (numKeys rightKeys : Nat) : Except Exn Unit :=
  if numKeys < 2 then
    .error (.assertion "n >= 2 && \"cannot split a node with fewer than 2 keys\"")
  else if rightKeys ≠ 0 then
    .error (.assertion "right.hdr().num_keys == 0 && \"right node must be empty\"")
  else .ok ()

namespace AnyNode

def isLeaf : AnyNode → Bool
  | leaf _ => true
  | internal _ => false

def numKeys : AnyNode → Nat
  | leaf n => n.numKeys
  | internal n => n.numKeys

def keyAt (slot : Nat) : AnyNode → Except Exn Bytes
  | leaf n => n.keyAt slot
  | internal n => n.keyAt slot

def valueAt (slot : Nat) : AnyNode → Except Exn Bytes
  | leaf n => n.valueAt slot
  | internal _ => .error (.assertion "is_leaf()")

def childAt (slot : Nat) : AnyNode → Except Exn PageId
  | leaf _ => .error (.assertion "!is_leaf()")
  | internal n => n.valueAt slot

def lowerBound (key : Bytes) : AnyNode → Nat
  | leaf n => KeyVDB.lowerBound n.cells key
  | internal n => KeyVDB.lowerBound n.cells key

def isFull (newCellBytes : Nat) : AnyNode → Bool
  | leaf n => n.isFull newCellBytes
  | internal n => n.isFull newCellBytes

def freeSpace : AnyNode → Nat
  | leaf n => n.freeSpace
  | internal n => n.freeSpace

def insertLeafCell (key value : Bytes) : AnyNode → Except Exn (Bool × AnyNode)
  | leaf n => .ok ((n.insertLeafCell key value).map id leaf)
  | internal _ => .error (.assertion "is_leaf()")

def removeCell (slot : Nat) : AnyNode → Except Exn AnyNode
  | leaf n => return leaf (← n.removeCellAt slot)
  | internal n => return internal (← n.removeCellAt slot)

def insertSeparator (key : Bytes) (rightChild : PageId) : AnyNode → Except Exn (Bool × AnyNode)
  | leaf _ => .error (.assertion "!is_leaf()")
  | internal n => .ok ((n.insertSeparator key rightChild).map id internal)

def updateSeparatorKey (slot : Nat) (newKey : Bytes) : AnyNode → Except Exn AnyNode
  | leaf _ => .error (.assertion "!is_leaf()")
  | internal n => return internal (← n.updateSeparatorKey slot newKey)

def updateChildAt (slot : Nat) (childId : PageId) : AnyNode → Except Exn AnyNode
  | leaf _ => .error (.assertion "!is_leaf()")
  | internal n => return internal (← n.updateChildAt slot childId)

def compact : AnyNode → AnyNode
  | leaf n => leaf n.compact
  | internal n => internal n.compact

/-- A right node of the other type is found out by the first cell that is put into it. -/
def splitInto (id rightId : PageId) : AnyNode → AnyNode → Except Exn (AnyNode × AnyNode × Bytes)
  | leaf n, leaf right => do
    let (n, right, sep) ← n.splitLeaf right id rightId
    return (leaf n, leaf right, sep)
  | internal n, internal right => do
    let (n, right, sep) ← n.splitInternal right
    return (internal n, internal right, sep)
  | leaf n, internal right => do
    splitCheckOf n.numKeys right.numKeys
    let _ ← n.keyAt n.splitAt
    throw (.assertion "is_leaf()")
  | internal n, leaf right => do
    splitCheckOf n.numKeys right.numKeys
    let sep ← n.keyAt n.splitMid
    let firstChild ← n.valueAt n.splitMid
    if n.splitMid + 1 < n.numKeys then throw (.assertion "!is_leaf()")
    return (internal (n.removeFrom n.splitMid),
      leaf { right with hdr := { right.hdr with parentId := n.hdr.parentId, firstChild } }, sep)

/-- The same for the first cell that is read from it. -/
def mergeFrom (sep : Bytes) : AnyNode → AnyNode → Except Exn AnyNode
  | leaf n, leaf right => return leaf (← n.mergeLeaf right)
  | internal n, internal right => return internal (← n.mergeInternal right sep)
  | leaf n, internal right =>
    if right.numKeys = 0 then
      .ok (leaf { n with hdr := { n.hdr with rightSibling := right.hdr.rightSibling } })
    else .error (.assertion "is_leaf()")
  | internal n, leaf right =>
    match n.insertSeparator sep right.hdr.firstChild with
    | (true, n) =>
      if right.numKeys = 0 then .ok (internal n) else .error (.assertion "!is_leaf()")
    | (false, _) =>
      .error (.assertion "ok && \"merged internal node should have room for separator\"")

def stealFromLeft : AnyNode → AnyNode → Except Exn (AnyNode × AnyNode × Bytes × Option PageId)
  | leaf n, leaf left => do
    let (n, left, newSep) ← n.stealFromLeftLeaf left
    return (leaf n, leaf left, newSep, none)
  | internal n, internal left => do
    let (n, left, newSep, stolenChild) ← n.stealFromLeftInternal left
    return (internal n, internal left, newSep, some stolenChild)
  | leaf _, internal left =>
    .error (.assertion (if left.numKeys = 0 then "slot < hdr().num_keys" else "is_leaf()"))
  | internal _, leaf left =>
    .error (.assertion (if left.numKeys = 0 then "slot < hdr().num_keys" else "!is_leaf()"))

def stealFromRight : AnyNode → AnyNode → Except Exn (AnyNode × AnyNode × Bytes × Option PageId)
  | leaf n, leaf right => do
    let (n, right, newSep) ← n.stealFromRightLeaf right
    return (leaf n, leaf right, newSep, none)
  | internal n, internal right => do
    let (n, right, newSep, stolenChild) ← n.stealFromRightInternal right
    return (internal n, internal right, newSep, some stolenChild)
  | leaf _, internal right =>
    .error (.assertion (if right.numKeys = 0 then "slot < hdr().num_keys" else "is_leaf()"))
  | internal _, leaf right =>
    .error (.assertion (if right.numKeys = 0 then "slot < hdr().num_keys" else "!is_leaf()"))

/-- On lists. -/
def ops : NodeOps AnyNode where
  initLeaf parentId := leaf (Node.init parentId)
  initInternal parentId := internal (Node.init parentId)
  isLeaf := isLeaf
  hdr := hdr
  numKeys := numKeys
  keyAt n slot := n.keyAt slot
  valueAt n slot := n.valueAt slot
  childAt n slot := n.childAt slot
  lowerBound n key := .ok (n.lowerBound key)
  isFull n newCellBytes := .ok (n.isFull newCellBytes)
  underflow n := .ok n.underflow
  freeSpace n := .ok n.freeSpace
  setHdrId n field id := n.mapHdr fun h => field.set h id
  insertLeafCell n key value := n.insertLeafCell key value
  removeCell n slot := n.removeCell slot
  insertSeparator n key rightChild := n.insertSeparator key rightChild
  updateSeparatorKey n slot newKey := n.updateSeparatorKey slot newKey
  updateChildAt n slot childId := n.updateChildAt slot childId
  splitInto n right id rightId := splitInto id rightId n right
  mergeFrom n right sep := mergeFrom sep n right
  stealFromLeft := stealFromLeft
  stealFromRight := stealFromRight
  compact n := .ok n.compact

end AnyNode

/-! ## Programs -/

instance : DecidableEq WordId := inferInstanceAs (DecidableEq { id : PageId // InWord 4 id })

/-- The two pages of a call: different ones, so that no write to the one shows in the other. -/
structure PagePair where
  this : WordId
  other : WordId
  ne : this ≠ other

/-- A call of `node.h`. -/
inductive NodeCall
  | initLeaf (id parentId : WordId)
  | initInternal (id parentId : WordId)
  | isLeaf (id : WordId)
  | hdr (id : WordId)
  | numKeys (id : WordId)
  | keyAt (id : WordId) (slot : Nat)
  | valueAt (id : WordId) (slot : Nat)
  | childAt (id : WordId) (slot : Nat)
  | lowerBound (id : WordId) (key : Bytes)
  | isFull (id : WordId) (newCellBytes : Nat)
  | underflow (id : WordId)
  | freeSpace (id : WordId)
  | setHdrId (id : WordId) (field : RawPage.HdrField) (x : WordId)
  | insertLeafCell (id : WordId) (key value : Bytes)
  | removeCell (id : WordId) (slot : Nat)
  | insertSeparator (id : WordId) (key : Bytes) (rightChild : WordId)
  | updateSeparatorKey (id : WordId) (slot : Nat) (newKey : Bytes)
  | updateChildAt (id : WordId) (slot : Nat) (childId : WordId)
  | splitInto (pair : PagePair)
  | mergeFrom (pair : PagePair) (sep : Bytes)
  | stealFromLeft (pair : PagePair)
  | stealFromRight (pair : PagePair)
  | compact (id : WordId)

/-- What a call returns. -/
inductive Answer
  | nothing
  | header (h : NodeHeader)
  | flag (b : Bool)
  | count (n : Nat)
  | bytes (b : Bytes)
  | child (id : PageId)
  | stolen (newSep : Bytes) (child : Option PageId)

section Calls

variable {π ρ : Type} {R : π → ρ → Prop} {A : NodeOps π} {B : NodeOps ρ}

def withPage (pages : WordId → π) (id : WordId) (p : π) : WordId → π := Function.update pages id p

def withPair (pages : WordId → π) (pair : PagePair) (p q : π) : WordId → π :=
  withPage (withPage pages pair.this p) pair.other q

/-- The call on the pages, which have their ids. -/
def NodeCall.exec (ops : NodeOps π) (c : NodeCall) (pages : WordId → π) :
    Except Exn (Answer × (WordId → π)) :=
  match c with
  | initLeaf id parentId => .ok (.nothing, withPage pages id (ops.initLeaf parentId.val))
  | initInternal id parentId => .ok (.nothing, withPage pages id (ops.initInternal parentId.val))
  | isLeaf id => .ok (.flag (ops.isLeaf (pages id)), pages)
  | hdr id => .ok (.header (ops.hdr (pages id)), pages)
  | numKeys id => .ok (.count (ops.numKeys (pages id)), pages)
  | keyAt id slot => return (.bytes (← ops.keyAt (pages id) slot), pages)
  | valueAt id slot => return (.bytes (← ops.valueAt (pages id) slot), pages)
  | childAt id slot => return (.child (← ops.childAt (pages id) slot), pages)
  | lowerBound id key => return (.count (← ops.lowerBound (pages id) key), pages)
  | isFull id size => return (.flag (← ops.isFull (pages id) size), pages)
  | underflow id => return (.flag (← ops.underflow (pages id)), pages)
  | freeSpace id => return (.count (← ops.freeSpace (pages id)), pages)
  | setHdrId id field x =>
    .ok (.nothing, withPage pages id (ops.setHdrId (pages id) field x.val))
  | insertLeafCell id key value => do
    let (ok, p) ← ops.insertLeafCell (pages id) key value
    return (.flag ok, withPage pages id p)
  | removeCell id slot => return (.nothing, withPage pages id (← ops.removeCell (pages id) slot))
  | insertSeparator id key rightChild => do
    let (ok, p) ← ops.insertSeparator (pages id) key rightChild.val
    return (.flag ok, withPage pages id p)
  | updateSeparatorKey id slot newKey =>
    return (.nothing, withPage pages id (← ops.updateSeparatorKey (pages id) slot newKey))
  | updateChildAt id slot childId =>
    return (.nothing, withPage pages id (← ops.updateChildAt (pages id) slot childId.val))
  | splitInto pair => do
    let (p, right, sep) ← ops.splitInto (pages pair.this) (pages pair.other) pair.this.val
      pair.other.val
    return (.bytes sep, withPair pages pair p right)
  | mergeFrom pair sep =>
    return (.nothing,
      withPage pages pair.this (← ops.mergeFrom (pages pair.this) (pages pair.other) sep))
  | stealFromLeft pair => do
    let (p, left, newSep, child) ← ops.stealFromLeft (pages pair.this) (pages pair.other)
    return (.stolen newSep child, withPair pages pair p left)
  | stealFromRight pair => do
    let (p, right, newSep, child) ← ops.stealFromRight (pages pair.this) (pages pair.other)
    return (.stolen newSep child, withPair pages pair p right)
  | compact id => return (.nothing, withPage pages id (← ops.compact (pages id)))

/-- The interface does the same on two types of pages, one call at a time. -/
structure SameOps (R : π → ρ → Prop) (A : NodeOps π) (B : NodeOps ρ) : Prop where
  initLeaf : ∀ parentId : WordId, R (A.initLeaf parentId.val) (B.initLeaf parentId.val)
  initInternal : ∀ parentId : WordId, R (A.initInternal parentId.val) (B.initInternal parentId.val)
  isLeaf : ∀ {p q}, R p q → A.isLeaf p = B.isLeaf q
  hdr : ∀ {p q}, R p q → A.hdr p = B.hdr q
  numKeys : ∀ {p q}, R p q → A.numKeys p = B.numKeys q
  keyAt : ∀ {p q}, R p q → ∀ slot, A.keyAt p slot = B.keyAt q slot
  valueAt : ∀ {p q}, R p q → ∀ slot, A.valueAt p slot = B.valueAt q slot
  childAt : ∀ {p q}, R p q → ∀ slot, A.childAt p slot = B.childAt q slot
  lowerBound : ∀ {p q}, R p q → ∀ key, A.lowerBound p key = B.lowerBound q key
  isFull : ∀ {p q}, R p q → ∀ size, A.isFull p size = B.isFull q size
  underflow : ∀ {p q}, R p q → A.underflow p = B.underflow q
  freeSpace : ∀ {p q}, R p q → A.freeSpace p = B.freeSpace q
  setHdrId : ∀ {p q}, R p q → ∀ field (id : WordId),
    R (A.setHdrId p field id.val) (B.setHdrId q field id.val)
  insertLeafCell : ∀ {p q}, R p q → ∀ key value,
    Agree (SameResult R) (A.insertLeafCell p key value) (B.insertLeafCell q key value)
  removeCell : ∀ {p q}, R p q → ∀ slot, Agree R (A.removeCell p slot) (B.removeCell q slot)
  insertSeparator : ∀ {p q}, R p q → ∀ key (child : WordId),
    Agree (SameResult R) (A.insertSeparator p key child.val) (B.insertSeparator q key child.val)
  updateSeparatorKey : ∀ {p q}, R p q → ∀ slot newKey,
    Agree R (A.updateSeparatorKey p slot newKey) (B.updateSeparatorKey q slot newKey)
  updateChildAt : ∀ {p q}, R p q → ∀ slot (child : WordId),
    Agree R (A.updateChildAt p slot child.val) (B.updateChildAt q slot child.val)
  splitInto : ∀ {p q p' q'}, R p q → R p' q' → ∀ id rightId : WordId,
    Agree (SamePair R) (A.splitInto p p' id.val rightId.val) (B.splitInto q q' id.val rightId.val)
  mergeFrom : ∀ {p q p' q'}, R p q → R p' q' → ∀ sep,
    Agree R (A.mergeFrom p p' sep) (B.mergeFrom q q' sep)
  stealFromLeft : ∀ {p q p' q'}, R p q → R p' q' →
    Agree (SamePair R) (A.stealFromLeft p p') (B.stealFromLeft q q')
  stealFromRight : ∀ {p q p' q'}, R p q → R p' q' →
    Agree (SamePair R) (A.stealFromRight p p') (B.stealFromRight q q')
  compact : ∀ {p q}, R p q → Agree R (A.compact p) (B.compact q)

/-- The pages are related one by one. -/
def SamePages (R : π → ρ → Prop) (f : WordId → π) (g : WordId → ρ) : Prop := ∀ id, R (f id) (g id)

namespace SamePages

variable {f : WordId → π} {g : WordId → ρ} {p p' : π} {q q' : ρ}

theorem withPage (h : SamePages R f g) (id : WordId) (hp : R p q) :
    SamePages R (withPage f id p) (withPage g id q) := by
  intro i
  by_cases hi : i = id
  · rw [hi, KeyVDB.withPage, KeyVDB.withPage, Function.update_self, Function.update_self]
    exact hp
  · rw [KeyVDB.withPage, KeyVDB.withPage, Function.update_of_ne hi, Function.update_of_ne hi]
    exact h i

theorem withPair (h : SamePages R f g) (pair : PagePair) (hp : R p q) (hp' : R p' q') :
    SamePages R (withPair f pair p p') (withPair g pair q q') :=
  (h.withPage pair.this hp).withPage pair.other hp'

/-- A call that only reads. -/
theorem reads {γ : Type} (h : SamePages R f g) (answer : γ → Answer) {x y : Except Exn γ}
    (hxy : x = y) : Agree (SameResult (SamePages R)) (do return (answer (← x), f))
      (do return (answer (← y), g)) :=
  .bind_eq hxy fun _ _ => .ok ⟨rfl, h⟩

/-- A call that changes one page. -/
theorem writes (h : SamePages R f g) (id : WordId) {x : Except Exn π} {y : Except Exn ρ}
    (hxy : Agree R x y) : Agree (SameResult (SamePages R))
      (do return (Answer.nothing, KeyVDB.withPage f id (← x)))
      (do return (Answer.nothing, KeyVDB.withPage g id (← y))) :=
  hxy.bind fun _ _ hpq => .ok ⟨rfl, h.withPage id hpq⟩

/-- A call that tries to insert. -/
theorem inserts (h : SamePages R f g) (id : WordId) {x : Except Exn (Bool × π)}
    {y : Except Exn (Bool × ρ)} (hxy : Agree (SameResult R) x y) :
    Agree (SameResult (SamePages R))
      (do let (ok, p) ← x; return (Answer.flag ok, KeyVDB.withPage f id p))
      (do let (ok, q) ← y; return (Answer.flag ok, KeyVDB.withPage g id q)) :=
  hxy.bind fun _ _ hpq => .ok ⟨congrArg Answer.flag hpq.1, h.withPage id hpq.2⟩

end SamePages

/-- One call. -/
theorem SameOps.exec (hops : SameOps R A B) (c : NodeCall) (f : WordId → π) (g : WordId → ρ)
    (h : SamePages R f g) : Agree (SameResult (SamePages R)) (c.exec A f) (c.exec B g) := by
  cases c with
  | initLeaf id parentId => exact .ok ⟨rfl, h.withPage id (hops.initLeaf parentId)⟩
  | initInternal id parentId => exact .ok ⟨rfl, h.withPage id (hops.initInternal parentId)⟩
  | isLeaf id => exact .ok ⟨congrArg Answer.flag (hops.isLeaf (h id)), h⟩
  | hdr id => exact .ok ⟨congrArg Answer.header (hops.hdr (h id)), h⟩
  | numKeys id => exact .ok ⟨congrArg Answer.count (hops.numKeys (h id)), h⟩
  | keyAt id slot => exact h.reads .bytes (hops.keyAt (h id) slot)
  | valueAt id slot => exact h.reads .bytes (hops.valueAt (h id) slot)
  | childAt id slot => exact h.reads .child (hops.childAt (h id) slot)
  | lowerBound id key => exact h.reads .count (hops.lowerBound (h id) key)
  | isFull id size => exact h.reads .flag (hops.isFull (h id) size)
  | underflow id => exact h.reads .flag (hops.underflow (h id))
  | freeSpace id => exact h.reads .count (hops.freeSpace (h id))
  | setHdrId id field x => exact .ok ⟨rfl, h.withPage id (hops.setHdrId (h id) field x)⟩
  | insertLeafCell id key value => exact h.inserts id (hops.insertLeafCell (h id) key value)
  | removeCell id slot => exact h.writes id (hops.removeCell (h id) slot)
  | insertSeparator id key child => exact h.inserts id (hops.insertSeparator (h id) key child)
  | updateSeparatorKey id slot newKey =>
    exact h.writes id (hops.updateSeparatorKey (h id) slot newKey)
  | updateChildAt id slot childId => exact h.writes id (hops.updateChildAt (h id) slot childId)
  | splitInto pair =>
    refine (hops.splitInto (h pair.this) (h pair.other) _ _).bind fun x y hxy => .ok ?_
    exact ⟨congrArg Answer.bytes hxy.2.2, h.withPair pair hxy.1 hxy.2.1⟩
  | mergeFrom pair sep => exact h.writes pair.this (hops.mergeFrom (h pair.this) (h pair.other) sep)
  | stealFromLeft pair =>
    refine (hops.stealFromLeft (h pair.this) (h pair.other)).bind fun x y hxy => .ok ?_
    exact ⟨congrArg (fun r => Answer.stolen r.1 r.2) hxy.2.2, h.withPair pair hxy.1 hxy.2.1⟩
  | stealFromRight pair =>
    refine (hops.stealFromRight (h pair.this) (h pair.other)).bind fun x y hxy => .ok ?_
    exact ⟨congrArg (fun r => Answer.stolen r.1 r.2) hxy.2.2, h.withPair pair hxy.1 hxy.2.1⟩
  | compact id => exact h.writes id (hops.compact (h id))

end Calls

/-! ## Bytes and lists -/

/-- The page holds the node, of its type. -/
def HoldsAny (p : RawPage) : AnyNode → Prop
  | .leaf n => Holds p n
  | .internal n => Holds p n

theorem RawPage.hdr_of_initHeader {p : RawPage} {parentId : PageId} (hid : InWord 4 parentId)
    (hdata : p.data = initHeader parentId) : p.hdr = { parentId } := by
  obtain ⟨pageType, pageLsn, data⟩ := p
  obtain rfl : data = initHeader parentId := hdata
  have hinvalid : InWord 4 INVALID_PAGE_ID := by decide
  -- the page ids are written one after another
  have hset : (⟨pageType, pageLsn, initHeader parentId⟩ : RawPage) = ((((⟨pageType, pageLsn,
      (Buffer.zero.setWord 2 2 SLOT_ARRAY_START).setWord 2 4 NODE_DATA_SIZE⟩ : RawPage).setHdrId
      .parentId parentId).setHdrId .rightSibling INVALID_PAGE_ID).setHdrId .leftSibling
      INVALID_PAGE_ID).setHdrId .firstChild INVALID_PAGE_ID := rfl
  rw [hset, hdr_setHdrId _ _ hinvalid, hdr_setHdrId _ _ hinvalid, hdr_setHdrId _ _ hinvalid,
    hdr_setHdrId _ _ hid]
  rfl

theorem Holds.of_initHeader {α : Type} [CellValue α] [CellCodec α] {p : RawPage}
    {parentId : PageId} (hid : InWord 4 parentId) (hleaf : p.isLeaf = CellCodec.leaf α)
    (hdata : p.data = RawPage.initHeader parentId) : Holds p (Node.init parentId : Node α) := by
  have h := laid_of_initHeader (α := α) p hleaf hdata
  rw [RawPage.hdr_of_initHeader hid hdata] at h
  exact ⟨[], h⟩

/-! ### Calls for the other type -/

namespace RawPage

variable {p : RawPage}

theorem valueAt_internal (hp : p.isLeaf = false) (slot : Nat) :
    p.valueAt slot = .error (.assertion "is_leaf()") := by
  rw [valueAt, payloadAt, hp]
  rfl

theorem childAt_leaf (hp : p.isLeaf = true) (slot : Nat) :
    p.childAt slot = .error (.assertion "!is_leaf()") := by
  rw [childAt, payloadAt, hp]
  rfl

theorem insertLeafCell_internal (hp : p.isLeaf = false) (key value : Bytes) :
    p.insertLeafCell key value = .error (.assertion "is_leaf()") := by
  rw [insertLeafCell, hp]
  rfl

theorem insertSeparator_leaf (hp : p.isLeaf = true) (key : Bytes) (child : PageId) :
    p.insertSeparator key child = .error (.assertion "!is_leaf()") := by
  rw [insertSeparator, hp]
  rfl

theorem keyAt_of_lt {slot : Nat} (hslot : slot < p.numKeys) : ∃ key, p.keyAt slot = .ok key :=
  ⟨_, if_pos hslot⟩

theorem payloadAt_of_lt {α : Type} [CellValue α] [CellCodec α] {slot : Nat}
    (hp : p.isLeaf = CellCodec.leaf α) (hslot : slot < p.numKeys) :
    ∃ a, p.payloadAt α slot = .ok a := by
  rw [payloadAt, if_pos hp, if_pos hslot]
  exact ⟨_, rfl⟩

/-- What follows `key_at` fails for every key. -/
theorem keyAt_bind_error {β : Type} {slot : Nat} {f : Bytes → Except Exn β} {cond : String}
    (hf : ∀ key, f key = .error (.assertion cond)) : (p.keyAt slot >>= f) =
      .error (.assertion (if slot < p.numKeys then cond else "slot < hdr().num_keys")) := by
  by_cases hslot : slot < p.numKeys
  · obtain ⟨key, hkey⟩ := keyAt_of_lt hslot
    rw [hkey, if_pos hslot]
    exact hf key
  · rw [keyAt, if_neg hslot, if_neg hslot]
    rfl

/-- A leaf cell does not go into an internal page. -/
theorem putLeafCell_internal {right : RawPage} {i : Nat} (hp : p.isLeaf = true)
    (hright : right.isLeaf = false) (hi : i < p.numKeys) :
    p.putLeafCell right i = .error (.assertion "is_leaf()") := by
  obtain ⟨key, hkey⟩ := keyAt_of_lt hi
  obtain ⟨value, hvalue⟩ := payloadAt_of_lt (α := Bytes) hp hi
  rw [putLeafCell, hkey, valueAt, hvalue]
  exact insertLeafCell_internal hright key value

/-- Nor does a separator go into a leaf. -/
theorem putSeparator_leaf {right : RawPage} {i : Nat} (hp : p.isLeaf = false)
    (hright : right.isLeaf = true) (hi : i < p.numKeys) :
    p.putSeparator right i = .error (.assertion "!is_leaf()") := by
  obtain ⟨key, hkey⟩ := keyAt_of_lt hi
  obtain ⟨child, hchild⟩ := payloadAt_of_lt (α := PageId) hp hi
  rw [putSeparator, hkey, childAt, hchild]
  exact insertSeparator_leaf hright key child

/-- An internal page has no leaf cells to put anywhere. -/
theorem putLeafCell_of_internal (hp : p.isLeaf = false) (right : RawPage) {i : Nat}
    (hi : i < p.numKeys) : p.putLeafCell right i = .error (.assertion "is_leaf()") := by
  obtain ⟨key, hkey⟩ := keyAt_of_lt hi
  rw [putLeafCell, hkey, valueAt_internal hp]
  rfl

theorem putSeparator_of_leaf (hp : p.isLeaf = true) (right : RawPage) {i : Nat}
    (hi : i < p.numKeys) : p.putSeparator right i = .error (.assertion "!is_leaf()") := by
  obtain ⟨key, hkey⟩ := keyAt_of_lt hi
  rw [putSeparator, hkey, childAt_leaf hp]
  rfl

theorem absorb_error {put : RawPage → Nat → Except Exn (Bool × RawPage)} {room : String} {e : Exn}
    {k i : Nat} (hput : put p i = .error e) (hk : k ≠ 0) : absorb put room k i p = .error e := by
  cases k with
  | zero => exact absurd rfl hk
  | succ k =>
    rw [absorb, hput]
    rfl

theorem splitCheck_eq (p right : RawPage) :
    splitCheck p right = splitCheckOf p.numKeys right.numKeys := rfl

end RawPage

namespace Holds

variable {p q : RawPage}

theorem lastSlot_lt {α : Type} [CellValue α] [CellCodec α] {n : Node α} (h : Holds p n) :
    p.lastSlot < p.numKeys ↔ n.numKeys ≠ 0 := by
  have hbounds := n.bounds
  rw [RawPage.lastSlot, h.numKeys]
  omega

section Leaf

variable {n : Node Bytes} {m : Node PageId}

theorem splitLeafInto_internal (h : Holds p n) (hq : Holds q m) (id rightId : PageId) :
    Agree (SamePair HoldsAny) (p.splitLeafInto q id rightId)
      (AnyNode.splitInto id rightId (.leaf n) (.internal m)) := by
  rw [RawPage.splitLeafInto, AnyNode.splitInto, RawPage.splitCheck_eq, h.numKeys, hq.numKeys]
  refine .bind_eq rfl fun _ _ => ?_
  refine .bind_ok h.freeSpace ?_
  refine .bind_ok (h.numKeys ▸ h.splitScan_leaf _) ?_
  refine .bind_eq (h.keyAt n.splitAt) fun sep (hsep : p.keyAt n.splitAt = .ok sep) => ?_
  rw [h.keyAt] at hsep
  have hlt : n.splitAt < n.numKeys := Node.lt_of_keyAt hsep
  -- there is a cell to copy
  have hput : p.putLeafCell (q.setHdrId .parentId p.hdr.parentId) n.splitAt = _ :=
    RawPage.putLeafCell_internal h.isLeaf hq.isLeaf (h.numKeys ▸ hlt)
  refine .bind_error ?_
  rw [copyFrom_eq_absorb]
  exact RawPage.absorb_error hput (Nat.sub_ne_zero_of_lt hlt)

theorem mergeLeafFrom_internal (h : Holds p n) (hq : Holds q m) (sep : Bytes) :
    Agree HoldsAny (p.mergeLeafFrom q) (AnyNode.mergeFrom sep (.leaf n) (.internal m)) := by
  obtain ⟨-, hsibling, -, -⟩ := hq.inWord_hdr
  rw [RawPage.mergeLeafFrom, AnyNode.mergeFrom, hq.numKeys]
  by_cases hzero : m.numKeys = 0
  · rw [if_pos hzero, hzero, hq.hdr]
    exact .ok (h.setHdrId .rightSibling hsibling)
  · rw [if_neg hzero]
    have hpos : 0 < q.numKeys := by
      rw [hq.numKeys]
      exact Nat.pos_of_ne_zero hzero
    exact .bind_error (RawPage.absorb_error (q.putLeafCell_of_internal hq.isLeaf p hpos) hzero)

theorem stealFromLeftLeaf_internal (p : RawPage) (hq : Holds q m) :
    p.stealFromLeftLeaf q = .error (.assertion
      (if m.numKeys = 0 then "slot < hdr().num_keys" else "is_leaf()")) := by
  rw [RawPage.stealFromLeftLeaf, RawPage.keyAt_bind_error fun key => by
    rw [RawPage.valueAt_internal hq.isLeaf]; rfl]
  rw [if_congr hq.lastSlot_lt rfl rfl, ite_not]

theorem stealFromRightLeaf_internal (p : RawPage) (hq : Holds q m) :
    p.stealFromRightLeaf q = .error (.assertion
      (if m.numKeys = 0 then "slot < hdr().num_keys" else "is_leaf()")) := by
  rw [RawPage.stealFromRightLeaf, RawPage.keyAt_bind_error fun key => by
    rw [RawPage.valueAt_internal hq.isLeaf]; rfl]
  rw [hq.numKeys, if_congr Nat.pos_iff_ne_zero rfl rfl, ite_not]

end Leaf

section Internal

variable {n : Node PageId} {m : Node Bytes}

theorem splitInternalInto_leaf (h : Holds p n) (hq : Holds q m) (id rightId : PageId) :
    Agree (SamePair HoldsAny) (p.splitInternalInto q)
      (AnyNode.splitInto id rightId (.internal n) (.leaf m)) := by
  obtain ⟨hparent, -, -, -⟩ := h.inWord_hdr
  rw [RawPage.splitInternalInto, AnyNode.splitInto, RawPage.splitCheck_eq, h.hdr, h.numKeys,
    hq.numKeys]
  refine .bind_eq rfl fun _ _ => ?_
  refine .bind_ok h.freeSpace ?_
  refine .bind_ok (h.numKeys ▸ h.splitScan_internal _) ?_
  refine .bind_eq (h.keyAt n.splitMid) fun sep _ => ?_
  refine .bind_eq (h.payloadAt n.splitMid)
    fun child (hchild : p.payloadAt PageId n.splitMid = .ok child) => ?_
  have hq₁ := (hq.setHdrId .parentId hparent).setHdrId .firstChild (h.inWord_of_valueAt hchild)
  by_cases hmore : n.splitMid + 1 < n.numKeys
  · rw [if_pos hmore]
    have hlt' : n.splitMid + 1 < p.numKeys := by rwa [h.numKeys]
    have hput := RawPage.putSeparator_leaf h.isLeaf hq₁.isLeaf hlt'
    refine .bind_error ?_
    rw [copyFrom_eq_absorb]
    exact RawPage.absorb_error hput (Nat.sub_ne_zero_of_lt hmore)
  · -- the last key is promoted, and no cell is copied
    rw [if_neg hmore]
    have hcopy (right : RawPage) : RawPage.copyFrom p.putSeparator
        (n.numKeys - (n.splitMid + 1)) (n.splitMid + 1) right = .ok right := by
      rw [Nat.sub_eq_zero_of_le (Nat.not_lt.mp hmore)]
      rfl
    obtain ⟨p', hremove, hp'⟩ := h.removeDownTo n.splitMid
    rw [h.numKeys] at hremove
    exact .bind_ok (hcopy _) (.bind_ok hremove (.ok ⟨hp', hq₁, rfl⟩))

theorem mergeInternalFrom_leaf (h : Holds p n) (hq : Holds q m) (sep : Bytes) :
    Agree HoldsAny (p.mergeInternalFrom q sep)
      (AnyNode.mergeFrom sep (.internal n) (.leaf m)) := by
  obtain ⟨-, -, -, hfirst⟩ := hq.inWord_hdr
  rw [RawPage.mergeInternalFrom, AnyNode.mergeFrom, hq.hdr]
  obtain ⟨r, hexec, hdone⟩ := (h.insertSeparator sep hfirst).of_ok
  refine .bind_ok hexec ?_
  rcases hdone.cases with ⟨p', n', rfl, hins, h'⟩ | ⟨p', n', rfl, hins⟩
  · rw [hins, hq.numKeys]
    by_cases hzero : m.numKeys = 0
    · simp only [hzero]
      exact .ok h'
    · have hpos : 0 < q.numKeys := by
        rw [hq.numKeys]
        exact Nat.pos_of_ne_zero hzero
      simp only [if_neg hzero,
        RawPage.absorb_error (q.putSeparator_of_leaf hq.isLeaf p' hpos) hzero]
      exact .error _
  · rw [hins]
    exact .error _

theorem stealFromLeftInternal_leaf (p : RawPage) (hq : Holds q m) :
    p.stealFromLeftInternal q = .error (.assertion
      (if m.numKeys = 0 then "slot < hdr().num_keys" else "!is_leaf()")) := by
  rw [RawPage.stealFromLeftInternal, RawPage.keyAt_bind_error fun key => by
    rw [RawPage.childAt_leaf hq.isLeaf]; rfl]
  rw [if_congr hq.lastSlot_lt rfl rfl, ite_not]

theorem stealFromRightInternal_leaf (p : RawPage) (hq : Holds q m) :
    p.stealFromRightInternal q = .error (.assertion
      (if m.numKeys = 0 then "slot < hdr().num_keys" else "!is_leaf()")) := by
  rw [RawPage.stealFromRightInternal, RawPage.keyAt_bind_error fun key => by
    rw [RawPage.childAt_leaf hq.isLeaf]; rfl]
  rw [hq.numKeys, if_congr Nat.pos_iff_ne_zero rfl rfl, ite_not]

end Internal

end Holds

namespace HoldsAny

variable {p q : RawPage} {n m : AnyNode}

theorem insertLeafCell (h : HoldsAny p n) (key value : Bytes) :
    Agree (SameResult HoldsAny) (p.insertLeafCell key value) (n.insertLeafCell key value) := by
  cases n with
  | leaf n =>
    obtain ⟨r, hexec, hdone⟩ := (Holds.insertLeafCell h key value).of_ok
    rw [hexec]
    exact .ok hdone
  | internal n =>
    rw [RawPage.insertLeafCell_internal (Holds.isLeaf h)]
    exact .error _

theorem insertSeparator (h : HoldsAny p n) (key : Bytes) {child : PageId}
    (hchild : InWord 4 child) : Agree (SameResult HoldsAny) (p.insertSeparator key child)
      (n.insertSeparator key child) := by
  cases n with
  | leaf n =>
    rw [RawPage.insertSeparator_leaf (Holds.isLeaf h)]
    exact .error _
  | internal n =>
    obtain ⟨r, hexec, hdone⟩ := (Holds.insertSeparator h key hchild).of_ok
    rw [hexec]
    exact .ok hdone

theorem valueAt (h : HoldsAny p n) (slot : Nat) : p.valueAt slot = n.valueAt slot := by
  cases n with
  | leaf n => exact Holds.payloadAt h slot
  | internal n => exact RawPage.valueAt_internal (Holds.isLeaf h) slot

theorem childAt (h : HoldsAny p n) (slot : Nat) : p.childAt slot = n.childAt slot := by
  cases n with
  | leaf n => exact RawPage.childAt_leaf (Holds.isLeaf h) slot
  | internal n => exact Holds.payloadAt h slot

theorem updateSeparatorKey (h : HoldsAny p n) (slot : Nat) (newKey : Bytes) :
    Agree HoldsAny (p.updateSeparatorKey slot newKey) (n.updateSeparatorKey slot newKey) := by
  cases n with
  | leaf n =>
    have hleaf : p.isLeaf = true := Holds.isLeaf h
    rw [RawPage.updateSeparatorKey, hleaf]
    exact .error _
  | internal n => exact (Holds.updateSeparatorKey h slot newKey).map_right fun _ _ h' => h'

theorem updateChildAt (h : HoldsAny p n) (slot : Nat) {child : PageId} (hchild : InWord 4 child) :
    Agree HoldsAny (p.updateChildAt slot child) (n.updateChildAt slot child) := by
  cases n with
  | leaf n =>
    have hleaf : p.isLeaf = true := Holds.isLeaf h
    rw [RawPage.updateChildAt, hleaf]
    exact .error _
  | internal n => exact (Holds.updateChildAt h slot hchild).map_right fun _ _ h' => h'

theorem removeCell (h : HoldsAny p n) (slot : Nat) :
    Agree HoldsAny (p.removeCell slot) (n.removeCell slot) := by
  cases n with
  | leaf n => exact (Holds.removeCell h slot).map_right fun _ _ h' => h'
  | internal n => exact (Holds.removeCell h slot).map_right fun _ _ h' => h'

/-! ### Two pages -/

theorem splitInto (h : HoldsAny p n) (hq : HoldsAny q m) {id rightId : PageId}
    (hid : InWord 4 id) (hright : InWord 4 rightId) :
    Agree (SamePair HoldsAny) (p.splitInto q id rightId) (AnyNode.splitInto id rightId n m) := by
  cases n with
  | leaf n =>
    rw [RawPage.splitInto, Holds.isLeaf h]
    cases m with
    | leaf m => exact (Holds.splitLeafInto h hq hid hright).map_right fun _ _ h' => h'
    | internal m => exact Holds.splitLeafInto_internal h hq id rightId
  | internal n =>
    rw [RawPage.splitInto, Holds.isLeaf h]
    cases m with
    | leaf m => exact Holds.splitInternalInto_leaf h hq id rightId
    | internal m => exact (Holds.splitInternalInto h hq).map_right fun _ _ h' => h'

theorem mergeFrom (h : HoldsAny p n) (hq : HoldsAny q m) (sep : Bytes) :
    Agree HoldsAny (p.mergeFrom q sep) (AnyNode.mergeFrom sep n m) := by
  cases n with
  | leaf n =>
    rw [RawPage.mergeFrom, Holds.isLeaf h]
    cases m with
    | leaf m => exact (Holds.mergeLeafFrom h hq).map_right fun _ _ h' => h'
    | internal m => exact Holds.mergeLeafFrom_internal h hq sep
  | internal n =>
    rw [RawPage.mergeFrom, Holds.isLeaf h]
    cases m with
    | leaf m => exact Holds.mergeInternalFrom_leaf h hq sep
    | internal m => exact (Holds.mergeInternalFrom h hq sep).map_right fun _ _ h' => h'

theorem stealFromLeft (h : HoldsAny p n) (hq : HoldsAny q m) :
    Agree (SamePair HoldsAny) (p.stealFromLeft q) (AnyNode.stealFromLeft n m) := by
  cases n with
  | leaf n =>
    rw [RawPage.stealFromLeft, Holds.isLeaf h]
    cases m with
    | leaf m =>
      refine (Holds.stealFromLeftLeaf h hq).bind fun x y hxy => .ok ⟨hxy.1, hxy.2.1, ?_⟩
      exact congrArg (fun sep => (sep, none)) hxy.2.2
    | internal m => exact .bind_error (Holds.stealFromLeftLeaf_internal p hq)
  | internal n =>
    rw [RawPage.stealFromLeft, Holds.isLeaf h]
    cases m with
    | leaf m => exact .bind_error (Holds.stealFromLeftInternal_leaf p hq)
    | internal m =>
      refine (Holds.stealFromLeftInternal h hq).bind fun x y hxy => .ok ⟨hxy.1, hxy.2.1, ?_⟩
      exact congrArg (fun r => (r.1, some r.2)) hxy.2.2

theorem stealFromRight (h : HoldsAny p n) (hq : HoldsAny q m) :
    Agree (SamePair HoldsAny) (p.stealFromRight q) (AnyNode.stealFromRight n m) := by
  cases n with
  | leaf n =>
    rw [RawPage.stealFromRight, Holds.isLeaf h]
    cases m with
    | leaf m =>
      refine (Holds.stealFromRightLeaf h hq).bind fun x y hxy => .ok ⟨hxy.1, hxy.2.1, ?_⟩
      exact congrArg (fun sep => (sep, none)) hxy.2.2
    | internal m => exact .bind_error (Holds.stealFromRightLeaf_internal p hq)
  | internal n =>
    rw [RawPage.stealFromRight, Holds.isLeaf h]
    cases m with
    | leaf m => exact .bind_error (Holds.stealFromRightInternal_leaf p hq)
    | internal m =>
      refine (Holds.stealFromRightInternal h hq).bind fun x y hxy => .ok ⟨hxy.1, hxy.2.1, ?_⟩
      exact congrArg (fun r => (r.1, some r.2)) hxy.2.2

end HoldsAny

/-- Call by call, the bytes do what the lists do. -/
theorem sameOps : SameOps HoldsAny RawPage.ops AnyNode.ops where
  initLeaf parentId := Holds.of_initHeader parentId.property rfl rfl
  initInternal parentId := Holds.of_initHeader parentId.property rfl rfl
  isLeaf {p n} h := by
    cases n with
    | leaf n => exact Holds.isLeaf h
    | internal n => exact Holds.isLeaf h
  hdr {p n} h := by
    cases n with
    | leaf n => exact Holds.hdr h
    | internal n => exact Holds.hdr h
  numKeys {p n} h := by
    cases n with
    | leaf n => exact Holds.numKeys h
    | internal n => exact Holds.numKeys h
  keyAt {p n} h slot := by
    cases n with
    | leaf n => exact Holds.keyAt h slot
    | internal n => exact Holds.keyAt h slot
  valueAt h slot := h.valueAt slot
  childAt h slot := h.childAt slot
  lowerBound {p n} h key := by
    cases n with
    | leaf n => exact Holds.lowerBound h key
    | internal n => exact Holds.lowerBound h key
  isFull {p n} h size := by
    cases n with
    | leaf n => exact Holds.isFull h size
    | internal n => exact Holds.isFull h size
  underflow {p n} h := by
    cases n with
    | leaf n => exact Holds.underflow h
    | internal n => exact Holds.underflow h
  freeSpace {p n} h := by
    cases n with
    | leaf n => exact Holds.freeSpace h
    | internal n => exact Holds.freeSpace h
  setHdrId {p n} h field id := by
    cases n with
    | leaf n => exact Holds.setHdrId h field id.property
    | internal n => exact Holds.setHdrId h field id.property
  insertLeafCell h key value := h.insertLeafCell key value
  removeCell h slot := h.removeCell slot
  insertSeparator h key child := h.insertSeparator key child.property
  updateSeparatorKey h slot newKey := h.updateSeparatorKey slot newKey
  updateChildAt h slot child := h.updateChildAt slot child.property
  splitInto h hq id rightId := h.splitInto hq id.property rightId.property
  mergeFrom h hq sep := h.mergeFrom hq sep
  stealFromLeft h hq := h.stealFromLeft hq
  stealFromRight h hq := h.stealFromRight hq
  compact {p n} h := by
    cases n with
    | leaf n => exact (Holds.compact compacts_leaf h).map_right fun _ _ h' => h'
    | internal n => exact (Holds.compact compacts_internal h).map_right fun _ _ h' => h'

/-- **Every program over `node.h` does on bytes what it does on lists of cells.** It starts with
empty leaves. -/
theorem nodePrograms_agree {β : Type} (prog : Program NodeCall Answer β) :
    Agree (SameResult (SamePages HoldsAny))
      (prog.run (NodeCall.exec RawPage.ops) fun _ => RawPage.initLeaf INVALID_PAGE_ID)
      (prog.run (NodeCall.exec AnyNode.ops) fun _ => .leaf (Node.init INVALID_PAGE_ID)) :=
  prog.agree sameOps.exec fun _ => Holds.of_initHeader (by decide) rfl rfl

end KeyVDB
