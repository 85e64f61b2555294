import KeyVDB.BTree.SlottedPage

/-!
# How full a node is

`free_space` is what lies between the slots and the heap, so the bytes of a removed cell count as
occupied until the heap is compacted. An `Account` is the abstract view of that: the live cells, and
the cells removed since the last compaction. Every history of a node keeps its account
(`Accounts.runLeaf`, `Accounts.runInternal`), and what `underflow` and `is_full` answer is read off
it.
-/

namespace KeyVDB

/-! ## Refused inserts -/

namespace Node

/-- **A refused insert** leaves the cells as they were exactly if it did not have to take out the
cell of its own key first. -/
theorem insertLeafCell_refused_iff (n : Node Bytes) (key value : Bytes) :
    ((n.insertLeafCell key value).1 = false → (n.insertLeafCell key value).2.cells = n.cells) ↔
      ∀ old, n.cells[lowerBound n.cells key]? = some (key, old) →
        old.length = value.length ∨
          Room (n.cells.eraseIdx (lowerBound n.cells key)) (key, value) := by
  by_cases hold : ∃ old, n.cells[lowerBound n.cells key]? = some (key, old)
  · obtain ⟨old, hget⟩ := hold
    by_cases hlen : old.length = value.length
    · -- overwritten in place, which is never refused
      obtain ⟨n', hins, -⟩ := insertLeafCell_same hget hlen
      rw [hins]
      refine iff_of_true (fun h => by cases h) fun old' hget' => Or.inl ?_
      rw [hget] at hget'
      cases hget'
      exact hlen
    · rw [insertLeafCell_other hget hlen]
      by_cases hroom : Room (n.cells.eraseIdx (lowerBound n.cells key)) (key, value)
      · obtain ⟨n', hplace, -⟩ := place_room
          (n := n.removeCell (lowerBound n.cells key))
          (lowerBound (n.removeCell (lowerBound n.cells key)).cells key) hroom
        rw [hplace]
        exact iff_of_true (fun h => by cases h) fun _ _ => Or.inr hroom
      · rw [place_no_room hroom]
        refine iff_of_false (fun h => ?_) fun h => ?_
        · -- one cell less than before
          have hcells : n.cells.eraseIdx (lowerBound n.cells key) = n.cells := h rfl
          have hlt := (List.getElem?_eq_some_iff.mp hget).1
          have hlength := congrArg List.length hcells
          rw [List.length_eraseIdx_of_lt hlt] at hlength
          omega
        · exact (h old hget).elim hlen hroom
  · have habsent : ∀ c ∈ n.cells[lowerBound n.cells key]?, c.1 ≠ key := by
      intro c hc e
      exact hold ⟨c.2, e ▸ hc⟩
    rw [insertLeafCell_absent value habsent]
    refine iff_of_true ?_ fun old hget => (hold ⟨old, hget⟩).elim
    by_cases hroom : Room n.cells (key, value)
    · obtain ⟨n', hplace, -⟩ := place_room (lowerBound n.cells key) hroom
      rw [hplace]
      exact fun h => by cases h
    · rw [place_no_room hroom]
      exact fun _ => rfl

/-- A leaf filled by two values. -/
def crowdedLeaf : Node Bytes :=
  (((init INVALID_PAGE_ID : Node Bytes).insertLeafCell [1] (List.replicate 2000 0)).2.insertLeafCell
    [2] (List.replicate 2000 0)).2

/-- A longer value for the first key is refused, and the key is gone. -/
theorem insertLeafCell_crowdedLeaf :
    ¬ ((crowdedLeaf.insertLeafCell [1] (List.replicate 2100 0)).1 = false →
      (crowdedLeaf.insertLeafCell [1] (List.replicate 2100 0)).2.cells = crowdedLeaf.cells) := by
  intro h
  have hcells := h (by decide +kernel)
  have hlength : (crowdedLeaf.insertLeafCell [1] (List.replicate 2100 0)).2.cells.length ≠
      crowdedLeaf.cells.length := by decide +kernel
  exact hlength (congrArg List.length hcells)

end Node

/-! ## Accounts -/

section Account

variable {α : Type} [CellValue α]

theorem heapSize_insertIdx_of_le {l : List (Bytes × α)} {slot : Nat} (h : slot ≤ l.length)
    (c : Bytes × α) : heapSize (l.insertIdx slot c) = cellSize c.1 c.2 + heapSize l := by
  unfold heapSize
  rw [(List.perm_insertIdx c l h).map _ |>.sum_eq, List.map_cons, List.sum_cons]

theorem heapSize_eraseIdx (l : List (Bytes × α)) (slot : Nat) :
    heapSize (l.eraseIdx slot) + heapSize l[slot]?.toList = heapSize l := by
  induction l generalizing slot with
  | nil => rfl
  | cons c l ih =>
    cases slot with
    | zero => simp [Nat.add_comm]
    | succ slot =>
      have h := ih slot
      rw [List.eraseIdx_cons_succ, List.getElem?_cons_succ, heapSize_cons, heapSize_cons]
      omega

theorem heapSize_take_drop (l : List (Bytes × α)) (slot : Nat) :
    heapSize (l.take slot) + heapSize (l.drop slot) = heapSize l := by
  rw [← heapSize_append, List.take_append_drop]

variable (α) in
/-- What there is to know of a node's space: the live cells, and the removed ones that still lie in
the heap. -/
structure Account where
  cells : List (Bytes × α) := []
  removed : List (Bytes × α) := []

namespace Account

/-- The bytes that are not free. -/
def used (a : Account α) : Nat := cellsCost a.cells + heapSize a.removed

def compact (a : Account α) : Account α := { a with removed := [] }

/-- There is room without compaction. -/
def Fits (a : Account α) (c : Bytes × α) : Prop := a.used + cellCost c ≤ NODE_USABLE_SIZE

instance (a : Account α) (c : Bytes × α) : Decidable (a.Fits c) :=
  inferInstanceAs (Decidable (_ ≤ _))

/-- A cell goes in if need be after compaction, or not at all. -/
def place (a : Account α) (slot : Nat) (c : Bytes × α) : Account α :=
  if a.Fits c then { a with cells := a.cells.insertIdx slot c }
  else if a.compact.Fits c then { a.compact with cells := a.cells.insertIdx slot c }
  else a.compact

def removeCell (a : Account α) (slot : Nat) : Account α where
  cells := a.cells.eraseIdx slot
  removed := a.removed ++ a.cells[slot]?.toList

def removeFrom (a : Account α) (slot : Nat) : Account α where
  cells := a.cells.take slot
  removed := a.removed ++ a.cells.drop slot

/-- Where a split cuts: the walk starts with half of what is used, removed cells included. -/
def splitAt (a : Account α) : Nat := Node.splitIdx (a.used / 2) a.cells 0 0

end Account

/-- The account of a node. -/
structure Accounts (n : Node α) (a : Account α) : Prop where
  cells : n.cells = a.cells
  heap : n.cellEnd + heapSize a.cells + heapSize a.removed = NODE_DATA_SIZE

namespace Accounts

variable {n : Node α} {a : Account α}

theorem init (parentId : PageId) : Accounts (Node.init parentId : Node α) {} := ⟨rfl, rfl⟩

theorem withHdr (h : Accounts n a) (hdr : NodeHeader) : Accounts { n with hdr } a :=
  ⟨h.cells, h.heap⟩

theorem used_add_freeSpace (h : Accounts n a) : a.used + n.freeSpace = NODE_USABLE_SIZE := by
  have hslots := n.slots_le
  have hheap := h.heap
  rw [Account.used, cellsCost_eq]
  rw [h.cells] at hslots
  simp only [Node.freeSpace, Node.freeEnd, Node.numKeys, h.cells, NODE_DATA_SIZE,
    NODE_USABLE_SIZE, SLOT_ARRAY_START, DATA_SIZE, PAGE_SIZE, HEADER_SIZE, NODE_HEADER_SIZE] at *
  omega

theorem isFull_iff (h : Accounts n a) (c : Bytes × α) :
    n.isFull (cellSize c.1 c.2) = false ↔ a.Fits c := by
  have hused := h.used_add_freeSpace
  rw [Node.isFull_eq_false, Account.Fits, cellCost]
  omega

/-- **`underflow`** counts the removed cells. -/
theorem underflow_iff (h : Accounts n a) :
    n.underflow = true ↔ cellsCost n.cells + heapSize a.removed < NODE_USABLE_SIZE / 2 := by
  have hused := h.used_add_freeSpace
  unfold Account.used at hused
  rw [Node.underflow, decide_eq_true_iff, h.cells]
  omega

theorem compact (h : Accounts n a) : Accounts n.compact a.compact := by
  refine ⟨h.cells, ?_⟩
  have hheap := n.heap_le
  rw [h.cells] at hheap
  simp only [Node.compact, Account.compact, h.cells, heapSize_nil]
  omega

theorem removeCell (h : Accounts n a) (slot : Nat) :
    Accounts (n.removeCell slot) (a.removeCell slot) := by
  constructor
  · rw [Node.removeCell_cells, h.cells]
    rfl
  · have herase := heapSize_eraseIdx a.cells slot
    have hheap := h.heap
    simp only [Node.removeCell, Account.removeCell, heapSize_append]
    omega

theorem removeFrom (h : Accounts n a) (slot : Nat) :
    Accounts (n.removeFrom slot) (a.removeFrom slot) := by
  constructor
  · rw [Node.removeFrom_cells, h.cells]
    rfl
  · have hparts := heapSize_take_drop a.cells slot
    have hheap := h.heap
    simp only [Node.removeFrom, Account.removeFrom, heapSize_append]
    omega

theorem writeCell (h : Accounts n a) {slot : Nat} (hslot : slot ≤ n.cells.length) {key : Bytes}
    {v : α} (hfull : n.isFull (cellSize key v) = false) :
    Accounts (n.writeCell slot key v hfull)
      { a with cells := a.cells.insertIdx slot (key, v) } := by
  constructor
  · simp only [Node.writeCell, h.cells]
  · have hinsert := heapSize_insertIdx_of_le (h.cells ▸ hslot) (key, v)
    have hroom := Node.isFull_eq_false.mp hfull
    have hheap := h.heap
    simp only [Node.freeSpace, totalCellCost] at hroom
    simp only [Node.writeCell, hinsert]
    omega

theorem place (h : Accounts n a) {slot : Nat} (hslot : slot ≤ n.cells.length) (key : Bytes)
    (v : α) : Accounts (n.place slot key v).2 (a.place slot (key, v)) := by
  unfold Node.place Account.place
  cases hfull : n.isFull (cellSize key v) with
  | false =>
    rw [if_pos ((h.isFull_iff (key, v)).mp hfull)]
    simp only [Bool.false_eq_true, if_false, hfull, dite_true]
    exact h.writeCell hslot hfull
  | true =>
    have hfits : ¬ a.Fits (key, v) := by
      intro hfits
      have hfull' : n.isFull (cellSize key v) = false := (h.isFull_iff (key, v)).mpr hfits
      rw [hfull] at hfull'
      cases hfull'
    rw [if_neg hfits]
    simp only [if_true]
    by_cases hcompact : a.compact.Fits (key, v)
    · have hroom := (h.compact.isFull_iff (key, v)).mpr hcompact
      rw [if_pos hcompact, dif_pos hroom]
      exact h.compact.writeCell hslot hroom
    · rw [if_neg hcompact, dif_neg fun hroom => hcompact ((h.compact.isFull_iff (key, v)).mp hroom)]
      exact h.compact

theorem setCell (h : Accounts n a) {slot : Nat} {c : Bytes × α}
    (hsize : ∀ d ∈ n.cells[slot]?, cellSize c.1 c.2 = cellSize d.1 d.2) :
    Accounts (n.setCell slot c hsize) { a with cells := a.cells.set slot c } := by
  constructor
  · simp only [Node.setCell, h.cells]
  · have hheap := h.heap
    have hset : heapSize (a.cells.set slot c) = heapSize a.cells :=
      heapSize_set (h.cells ▸ hsize)
    simp only [Node.setCell, hset]
    exact hheap

theorem splitAt_eq (h : Accounts n a) : n.splitAt = a.splitAt := by
  have hused := h.used_add_freeSpace
  rw [Node.splitAt, Account.splitAt, h.cells, Nat.sub_eq_of_eq_add hused.symm]

/-- Copying keeps accounts if the insert does. -/
theorem copyCells {insert : Node α → Bytes → α → Bool × Node α}
    {enter : Account α → Bytes × α → Account α}
    (hinsert : ∀ n a key v, Accounts n a → Accounts (insert n key v).2 (enter a (key, v)))
    (room : String) (h : Accounts n a) (cells : List (Bytes × α)) {n' : Node α}
    (hcopy : Node.copyCells insert room n cells = .ok n') : Accounts n' (cells.foldl enter a) := by
  induction cells generalizing n a with
  | nil =>
    cases hcopy
    exact h
  | cons c cells ih =>
    have hstep := hinsert n a c.1 c.2 h
    rw [Node.copyCells] at hcopy
    split at hcopy
    · next n₁ heq =>
      rw [heq] at hstep
      exact ih hstep hcopy
    · cases hcopy

end Accounts

end Account

/-! ## Histories -/

/-- An operation on a page, or a split of which the page is one half. -/
inductive PageOp (ω : Type)
  | op (o : ω)
  | splitLeft (id rightId : PageId)
  | splitRight (id rightId : PageId)

section Checked

variable {α : Type} [CellValue α]

/-- `remove_cell` with its assertion. -/
def Node.removeCellAt (n : Node α) (slot : Nat) : Except Exn (Node α) :=
  if slot < n.numKeys then .ok (n.removeCell slot)
  else .error (.assertion "slot < hdr().num_keys")

theorem Accounts.removeCellAt {n n' : Node α} {a : Account α} (h : Accounts n a) {slot : Nat}
    (hr : n.removeCellAt slot = .ok n') : Accounts n' (a.removeCell slot) := by
  unfold Node.removeCellAt at hr
  split at hr
  · cases hr
    exact h.removeCell slot
  · cases hr

/-- The removed cells do not hide that the live ones take less than half of the page. -/
def Account.Plain (a : Account α) : Prop :=
  cellsCost a.cells < NODE_USABLE_SIZE / 2 →
    cellsCost a.cells + heapSize a.removed < NODE_USABLE_SIZE / 2

instance (a : Account α) : Decidable a.Plain := inferInstanceAs (Decidable (_ → _))

/-- `underflow` is about the live cells. -/
def Node.UnderflowLive (n : Node α) : Prop :=
  n.underflow = true ↔ cellsCost n.cells < NODE_USABLE_SIZE / 2

theorem Accounts.underflowLive_iff {n : Node α} {a : Account α} (h : Accounts n a) :
    n.UnderflowLive ↔ a.Plain := by
  unfold Node.UnderflowLive Account.Plain
  rw [h.underflow_iff, h.cells]
  constructor
  · intro hlive hlt
    exact hlive.mpr hlt
  · intro hplain
    refine ⟨fun hlt => ?_, hplain⟩
    omega

theorem Accounts.compact_underflow_iff {n : Node α} {a : Account α} (h : Accounts n a) :
    n.compact.underflow = n.underflow ↔ a.Plain := by
  have hcompact := h.compact.underflow_iff
  rw [Node.compact_cells, Account.compact, heapSize_nil, Nat.add_zero] at hcompact
  rw [Bool.eq_iff_iff, hcompact, ← h.underflowLive_iff, Node.UnderflowLive]
  exact ⟨Iff.symm, Iff.symm⟩

end Checked

/-! ### Leaves -/

/-- `insert_leaf_cell` in terms of accounts. -/
def Account.insertLeafCell (a : Account Bytes) (c : Bytes × Bytes) : Account Bytes :=
  let slot := lowerBound a.cells c.1
  match a.cells[slot]? with
  | none => a.place slot c
  | some (k, old) =>
    if k = c.1 then
      if old.length = c.2.length then { a with cells := a.cells.set slot c }
      else
        let a := a.removeCell slot
        a.place (lowerBound a.cells c.1) c
    else a.place slot c

def LeafOp.onNode (n : Node Bytes) : LeafOp → Except Exn (Node Bytes)
  | insertLeafCell key value => .ok (n.insertLeafCell key value).2
  | removeCell slot => n.removeCellAt slot
  | compact => .ok n.compact

def LeafOp.onAccount (a : Account Bytes) : LeafOp → Account Bytes
  | insertLeafCell key value => a.insertLeafCell (key, value)
  | removeCell slot => a.removeCell slot
  | compact => a.compact

/-- One step in the life of a leaf. The right node of a split is a new page. -/
def PageOp.onLeaf (n : Node Bytes) : PageOp LeafOp → Except Exn (Node Bytes)
  | op o => o.onNode n
  | splitLeft id rightId => return (← n.splitLeaf (Node.init INVALID_PAGE_ID) id rightId).1
  | splitRight id rightId => return (← n.splitLeaf (Node.init INVALID_PAGE_ID) id rightId).2.1

def PageOp.onLeafAccount (a : Account Bytes) : PageOp LeafOp → Account Bytes
  | op o => o.onAccount a
  | splitLeft _ _ => a.removeFrom a.splitAt
  | splitRight _ _ => (a.cells.drop a.splitAt).foldl Account.insertLeafCell {}

namespace Accounts

theorem insertLeafCell (n : Node Bytes) (a : Account Bytes) (key value : Bytes)
    (h : Accounts n a) :
    Accounts (n.insertLeafCell key value).2 (a.insertLeafCell (key, value)) := by
  have hslot := lowerBound_le n.cells key
  have hlower : lowerBound a.cells key = lowerBound n.cells key := by rw [h.cells]
  unfold Node.insertLeafCell
  dsimp only
  split
  · next hc =>
    have hget : a.cells[lowerBound n.cells key]? = none := by rw [← h.cells]; exact hc
    simp only [Account.insertLeafCell, hlower, hget]
    exact h.place hslot key value
  · next k old hc =>
    have hget : a.cells[lowerBound n.cells key]? = some (k, old) := by rw [← h.cells]; exact hc
    simp only [Account.insertLeafCell, hlower, hget]
    by_cases hk : k = key
    · by_cases hlen : old.length = value.length
      · simp only [hk, hlen, dite_true, if_true]
        exact h.setCell _
      · have hrem := h.removeCell (lowerBound n.cells key)
        simp only [hk, hlen, dite_true, if_true, dite_false, if_false, ← hrem.cells]
        exact hrem.place (lowerBound_le _ key) key value
    · simp only [hk, dite_false, if_false]
      exact h.place hslot key value

theorem onLeafOp {n n' : Node Bytes} {a : Account Bytes} (h : Accounts n a) (o : LeafOp)
    (hr : o.onNode n = .ok n') : Accounts n' (o.onAccount a) := by
  cases o with
  | insertLeafCell key value =>
    cases hr
    exact insertLeafCell n a key value h
  | removeCell slot => exact h.removeCellAt hr
  | compact =>
    cases hr
    exact h.compact

/-- Both halves of a leaf. -/
theorem splitLeaf {n left right : Node Bytes} {a : Account Bytes} {sep : Bytes}
    {id rightId parentId : PageId} (h : Accounts n a)
    (hr : n.splitLeaf (Node.init parentId) id rightId = .ok (left, right, sep)) :
    Accounts left (a.removeFrom a.splitAt) ∧
      Accounts right ((a.cells.drop a.splitAt).foldl Account.insertLeafCell {}) := by
  unfold Node.splitLeaf at hr
  obtain ⟨-, -, hr⟩ := except_bind_eq_ok.mp hr
  obtain ⟨key, -, hr⟩ := except_bind_eq_ok.mp hr
  obtain ⟨copied, hcopy, hr⟩ := except_bind_eq_ok.mp hr
  cases hr
  rw [← h.splitAt_eq, ← h.cells]
  have hempty : Accounts { (Node.init parentId : Node Bytes) with
      hdr := { (Node.init parentId : Node Bytes).hdr with parentId := n.hdr.parentId } } {} :=
    (init parentId).withHdr _
  exact ⟨(h.removeFrom n.splitAt).withHdr _,
    (hempty.copyCells insertLeafCell _ _ hcopy).withHdr _⟩

/-- **Every step of a leaf keeps its account.** -/
theorem onLeaf {n n' : Node Bytes} {a : Account Bytes} (h : Accounts n a) (o : PageOp LeafOp)
    (hr : o.onLeaf n = .ok n') : Accounts n' (o.onLeafAccount a) := by
  cases o with
  | op o => exact h.onLeafOp o hr
  | splitLeft id rightId =>
    obtain ⟨⟨left, right, sep⟩, hsplit, hr⟩ := except_bind_eq_ok.mp hr
    cases hr
    exact (h.splitLeaf hsplit).1
  | splitRight id rightId =>
    obtain ⟨⟨left, right, sep⟩, hsplit, hr⟩ := except_bind_eq_ok.mp hr
    cases hr
    exact (h.splitLeaf hsplit).2

end Accounts

/-! ### Internal nodes -/

/-- `insert_separator` in terms of accounts. -/
def Account.insertSeparator (a : Account PageId) (c : Bytes × PageId) : Account PageId :=
  a.place (lowerBound a.cells c.1) c

/-- The middle of an internal node. -/
def Account.splitMid (a : Account PageId) : Nat :=
  let mid := if a.splitAt = 0 then 1 else a.splitAt
  if a.cells.length - 1 ≤ mid then a.cells.length - 1 else mid

/-- A cell of the same size in place of another. -/
def Account.update {α : Type} (a : Account α) (slot : Nat) (f : Bytes × α → Bytes × α) :
    Account α :=
  { a with cells := a.cells.modify slot f }

def InternalOp.onNode (n : Node PageId) : InternalOp → Except Exn (Node PageId)
  | insertSeparator key child => .ok (n.insertSeparator key child.val).2
  | removeCell slot => n.removeCellAt slot
  | updateSeparatorKey slot newKey => n.updateSeparatorKey slot newKey
  | updateChildAt slot child => n.updateChildAt slot child.val
  | compact => .ok n.compact

def InternalOp.onAccount (a : Account PageId) : InternalOp → Account PageId
  | insertSeparator key child => a.insertSeparator (key, child.val)
  | removeCell slot => a.removeCell slot
  | updateSeparatorKey slot newKey => a.update slot fun c => (newKey, c.2)
  | updateChildAt slot child => a.update slot fun c => (c.1, child.val)
  | compact => a.compact

/-- One step in the life of an internal node. -/
def PageOp.onInternal (n : Node PageId) : PageOp InternalOp → Except Exn (Node PageId)
  | op o => o.onNode n
  | splitLeft _ _ => return (← n.splitInternal (Node.init INVALID_PAGE_ID)).1
  | splitRight _ _ => return (← n.splitInternal (Node.init INVALID_PAGE_ID)).2.1

def PageOp.onInternalAccount (a : Account PageId) : PageOp InternalOp → Account PageId
  | op o => o.onAccount a
  | splitLeft _ _ => a.removeFrom a.splitMid
  | splitRight _ _ => (a.cells.drop (a.splitMid + 1)).foldl Account.insertSeparator {}

namespace Accounts

theorem insertSeparator (n : Node PageId) (a : Account PageId) (key : Bytes) (child : PageId)
    (h : Accounts n a) :
    Accounts (n.insertSeparator key child).2 (a.insertSeparator (key, child)) := by
  unfold Node.insertSeparator Account.insertSeparator
  rw [← h.cells]
  exact h.place (lowerBound_le n.cells key) key child

theorem updated {α : Type} [CellValue α] {n : Node α} {a : Account α} (h : Accounts n a)
    {slot : Nat} {c : Bytes × α} {f : Bytes × α → Bytes × α} (hget : n.cells[slot]? = some c)
    (hsize : ∀ d ∈ n.cells[slot]?, cellSize (f c).1 (f c).2 = cellSize d.1 d.2) :
    Accounts (n.setCell slot (f c) hsize) (a.update slot f) := by
  have hmodify : a.cells.modify slot f = a.cells.set slot (f c) := by
    rw [List.modify_eq_set_getElem?, ← h.cells, hget]
    rfl
  rw [Account.update, hmodify]
  exact h.setCell hsize

theorem onInternalOp {n n' : Node PageId} {a : Account PageId} (h : Accounts n a)
    (o : InternalOp) (hr : o.onNode n = .ok n') : Accounts n' (o.onAccount a) := by
  cases o with
  | insertSeparator key child =>
    cases hr
    exact insertSeparator n a key child.val h
  | removeCell slot => exact h.removeCellAt hr
  | updateSeparatorKey slot newKey =>
    change n.updateSeparatorKey slot newKey = .ok n' at hr
    unfold Node.updateSeparatorKey at hr
    split at hr
    · cases hr
    · next k child hc =>
      split at hr
      · cases hr
        exact h.updated (f := fun c => (newKey, c.2)) hc _
      · cases hr
  | updateChildAt slot child =>
    change n.updateChildAt slot child.val = .ok n' at hr
    unfold Node.updateChildAt at hr
    split at hr
    · cases hr
    · next k old hc =>
      cases hr
      exact h.updated (f := fun c => (c.1, child.val)) hc _
  | compact =>
    cases hr
    exact h.compact

theorem splitMid_eq {n : Node PageId} {a : Account PageId} (h : Accounts n a) :
    n.splitMid = a.splitMid := by
  rw [Node.splitMid, Account.splitMid, h.splitAt_eq, Node.numKeys, h.cells]

/-- Both halves of an internal node. -/
theorem splitInternal {n left right : Node PageId} {a : Account PageId} {sep : Bytes}
    {parentId : PageId} (h : Accounts n a)
    (hr : n.splitInternal (Node.init parentId) = .ok (left, right, sep)) :
    Accounts left (a.removeFrom a.splitMid) ∧
      Accounts right ((a.cells.drop (a.splitMid + 1)).foldl Account.insertSeparator {}) := by
  unfold Node.splitInternal at hr
  obtain ⟨-, -, hr⟩ := except_bind_eq_ok.mp hr
  obtain ⟨key, -, hr⟩ := except_bind_eq_ok.mp hr
  obtain ⟨firstChild, -, hr⟩ := except_bind_eq_ok.mp hr
  obtain ⟨copied, hcopy, hr⟩ := except_bind_eq_ok.mp hr
  cases hr
  rw [← h.splitMid_eq, ← h.cells]
  have hempty : Accounts { (Node.init parentId : Node PageId) with
      hdr := { (Node.init parentId : Node PageId).hdr with
        parentId := n.hdr.parentId, firstChild } } {} :=
    (init parentId).withHdr _
  exact ⟨h.removeFrom n.splitMid, hempty.copyCells insertSeparator _ _ hcopy⟩

/-- **Every step of an internal node keeps its account.** -/
theorem onInternal {n n' : Node PageId} {a : Account PageId} (h : Accounts n a)
    (o : PageOp InternalOp) (hr : o.onInternal n = .ok n') :
    Accounts n' (o.onInternalAccount a) := by
  cases o with
  | op o => exact h.onInternalOp o hr
  | splitLeft id rightId =>
    obtain ⟨⟨left, right, sep⟩, hsplit, hr⟩ := except_bind_eq_ok.mp hr
    cases hr
    exact (h.splitInternal hsplit).1
  | splitRight id rightId =>
    obtain ⟨⟨left, right, sep⟩, hsplit, hr⟩ := except_bind_eq_ok.mp hr
    cases hr
    exact (h.splitInternal hsplit).2

/-! ### Whole histories -/

/-- A history keeps accounts if its steps do. -/
theorem history {α ω : Type} [CellValue α] {step : Node α → ω → Except Exn (Node α)}
    {enter : Account α → ω → Account α}
    (hstep : ∀ n n' a o, Accounts n a → step n o = .ok n' → Accounts n' (enter a o))
    {n n' : Node α} {a : Account α} (h : Accounts n a) {ops : List ω}
    (hrun : ops.foldlM step n = .ok n') : Accounts n' (ops.foldl enter a) := by
  induction ops generalizing n a with
  | nil =>
    cases hrun
    exact h
  | cons o ops ih =>
    rw [List.foldlM_cons] at hrun
    obtain ⟨n₁, hop, hrun⟩ := except_bind_eq_ok.mp hrun
    exact ih (hstep n n₁ a o h hop) hrun

theorem runLeaf {parentId : PageId} {ops : List (PageOp LeafOp)} {n : Node Bytes}
    (hrun : ops.foldlM PageOp.onLeaf (Node.init parentId) = .ok n) :
    Accounts n (ops.foldl PageOp.onLeafAccount {}) :=
  history (fun _ _ _ o h hr => h.onLeaf o hr) (init parentId) hrun

theorem runInternal {parentId : PageId} {ops : List (PageOp InternalOp)} {n : Node PageId}
    (hrun : ops.foldlM PageOp.onInternal (Node.init parentId) = .ok n) :
    Accounts n (ops.foldl PageOp.onInternalAccount {}) :=
  history (fun _ _ _ o h hr => h.onInternal o hr) (init parentId) hrun

end Accounts

/-- **`underflow` after a history** is about the live cells, and is not changed by a compaction,
exactly if the cells removed since the last one do not hide that less than half of the page is
live. -/
theorem underflowLive_iff_plain (parentId : PageId) :
    (∀ (ops : List (PageOp LeafOp)) (n : Node Bytes),
      ops.foldlM PageOp.onLeaf (Node.init parentId) = .ok n →
        (n.UnderflowLive ↔ (ops.foldl PageOp.onLeafAccount {}).Plain) ∧
        (n.compact.underflow = n.underflow ↔ (ops.foldl PageOp.onLeafAccount {}).Plain)) ∧
    (∀ (ops : List (PageOp InternalOp)) (n : Node PageId),
      ops.foldlM PageOp.onInternal (Node.init parentId) = .ok n →
        (n.UnderflowLive ↔ (ops.foldl PageOp.onInternalAccount {}).Plain) ∧
        (n.compact.underflow = n.underflow ↔
          (ops.foldl PageOp.onInternalAccount {}).Plain)) := by
  constructor
  · intro ops n hrun
    have h := Accounts.runLeaf hrun
    exact ⟨h.underflowLive_iff, h.compact_underflow_iff⟩
  · intro ops n hrun
    have h := Accounts.runInternal hrun
    exact ⟨h.underflowLive_iff, h.compact_underflow_iff⟩

/-- A long value comes and goes. -/
def emptied : List (PageOp LeafOp) :=
  [.op (.insertLeafCell [1] (List.replicate 3000 0)), .op (.removeCell 0)]

/-- A leaf that has lost its only cell. -/
theorem foldlM_emptied : ∃ n, emptied.foldlM PageOp.onLeaf (Node.init INVALID_PAGE_ID) = .ok n ∧
    n.cells.length = 0 ∧ n.underflow = false := by
  have hrun : (emptied.foldlM PageOp.onLeaf (Node.init INVALID_PAGE_ID)).toOption.map
      (fun n => (n.cells.length, n.underflow)) = some (0, false) := by decide +kernel
  cases h : emptied.foldlM PageOp.onLeaf (Node.init INVALID_PAGE_ID) with
  | error e => rw [h] at hrun; cases hrun
  | ok n =>
    rw [h] at hrun
    have hpair := Prod.mk.inj (Option.some.inj hrun)
    exact ⟨n, rfl, hpair.1, hpair.2⟩

/-- It does not report underflow. -/
theorem not_underflowLive_emptied :
    ¬ ∀ (parentId : PageId) (ops : List (PageOp LeafOp)) (n : Node Bytes),
      ops.foldlM PageOp.onLeaf (Node.init parentId) = .ok n → n.UnderflowLive := by
  intro h
  obtain ⟨n, hrun, hcells, hunder⟩ := foldlM_emptied
  have hlive := (h INVALID_PAGE_ID emptied n hrun).mpr
    (by rw [List.length_eq_zero_iff.mp hcells]; decide)
  rw [hunder] at hlive
  cases hlive

/-- The condition tells the two apart: the same leaf after a compaction. -/
theorem underflowLive_emptied_compact :
    (∃ n, emptied.foldlM PageOp.onLeaf (Node.init INVALID_PAGE_ID) = .ok n ∧
      ¬ n.UnderflowLive) ∧
    ∃ n, (emptied ++ [PageOp.op LeafOp.compact]).foldlM PageOp.onLeaf (Node.init INVALID_PAGE_ID) = .ok n ∧
      n.UnderflowLive := by
  obtain ⟨n, hrun, -, -⟩ := foldlM_emptied
  have hrun' : (emptied ++ [PageOp.op LeafOp.compact]).foldlM PageOp.onLeaf (Node.init INVALID_PAGE_ID) =
      .ok n.compact := by
    rw [List.foldlM_append, hrun]
    rfl
  exact ⟨⟨n, hrun, fun hlive => absurd (((underflowLive_iff_plain _).1 _ _ hrun).1.mp hlive)
      (by decide +kernel)⟩,
    n.compact, hrun', ((underflowLive_iff_plain _).1 _ _ hrun').1.mpr (by decide +kernel)⟩

/-! ## Merging -/

namespace Node

/-- **`merge_from` of two underflowing nodes.** Leaves always fit into one page; internal nodes do
exactly if the separator that is pulled down fits as well. -/
theorem merge_of_underflow (sep : Bytes) :
    (∀ n r : Node Bytes, n.underflow = true → r.underflow = true → Sorted (n.cells ++ r.cells) →
      ∃ n', n.mergeLeaf r = .ok n' ∧ n'.cells = n.cells ++ r.cells) ∧
    (∀ n r : Node PageId, n.underflow = true → r.underflow = true →
      Sorted (n.cells ++ (sep, r.hdr.firstChild) :: r.cells) →
      ((∃ n', n.mergeInternal r sep = .ok n' ∧
          n'.cells = n.cells ++ (sep, r.hdr.firstChild) :: r.cells) ↔
        cellsCost n.cells + totalCellCost (internalCellSize sep.length) + cellsCost r.cells ≤
          NODE_USABLE_SIZE)) := by
  constructor
  · intro n r hn hr hs
    obtain ⟨n', hmerge, hcells, -⟩ := mergeLeaf_spec hs (cost_of_underflow hn hr)
    exact ⟨n', hmerge, hcells⟩
  · intro n r hn hr hs
    have hcost : cellsCost (n.cells ++ (sep, r.hdr.firstChild) :: r.cells) =
        cellsCost n.cells + totalCellCost (internalCellSize sep.length) + cellsCost r.cells := by
      rw [cellsCost_append, cellsCost_cons, ← Nat.add_assoc]
      rfl
    rw [← hcost]
    constructor
    · intro hmerge
      obtain ⟨n', -, hcells⟩ := hmerge
      rw [← hcells]
      exact n'.cost_le
    · intro hfits
      obtain ⟨n', hmerge, hcells, -⟩ := mergeInternal_spec hs hfits
      exact ⟨n', hmerge, hcells⟩

/-- An internal node with one separator, a letter followed by zeroes. -/
def oneSeparator (letter : UInt8) (zeroes : Nat) : Node PageId :=
  ((init INVALID_PAGE_ID : Node PageId).insertSeparator (letter :: List.replicate zeroes 0) 1).2

/-- Long separators: both nodes are less than half full, and the one between them does not fit. -/
theorem not_mergeInternal_fits :
    ¬ ∀ (n r : Node PageId) (sep : Bytes), n.underflow = true → r.underflow = true →
      Sorted (n.cells ++ (sep, r.hdr.firstChild) :: r.cells) →
      ∃ n', n.mergeInternal r sep = .ok n' ∧
        n'.cells = n.cells ++ (sep, r.hdr.firstChild) :: r.cells := by
  intro h
  obtain ⟨n', hmerge, -⟩ := h (oneSeparator 1 1900) (oneSeparator 3 1900)
    (2 :: List.replicate 1500 0) (by decide +kernel) (by decide +kernel) (by decide +kernel)
  have herror : ((oneSeparator 1 1900).mergeInternal (oneSeparator 3 1900)
      (2 :: List.replicate 1500 0)).toOption.isNone = true := by decide +kernel
  rw [hmerge] at herror
  cases herror

/-- Short ones fit. -/
theorem merge_of_underflow_oneSeparator :
    (∃ n', (oneSeparator 1 1900).mergeInternal (oneSeparator 3 1900) [2] = .ok n' ∧
      n'.cells.length = 3) ∧
    ∃ n', (init INVALID_PAGE_ID : Node Bytes).mergeLeaf (init INVALID_PAGE_ID) = .ok n' ∧
      n'.cells = [] := by
  constructor
  · obtain ⟨n', hmerge, hcells⟩ := ((merge_of_underflow [2]).2 (oneSeparator 1 1900)
      (oneSeparator 3 1900) (by decide +kernel) (by decide +kernel)
      (by decide +kernel)).mpr (by decide +kernel)
    exact ⟨n', hmerge, by rw [hcells]; decide +kernel⟩
  · exact (merge_of_underflow [2]).1 _ _ (by decide) (by decide) List.Pairwise.nil

end Node

end KeyVDB
