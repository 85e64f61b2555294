import KeyVDB.BTree.Fullness
import KeyVDB.BTree.Splits

/-!
# `split_into` on bytes

The walk over the slots, the copy of the upper cells into the right page and their removal from the
left one, last slot first, each step on the bytes the step before has left. On a page without dead
bytes in its heap the walk ends at an interior slot and no assertion fails. Two leaves then hold the
two parts of the list of cells. The separators after the middle of an internal page go into the right
page one after the other, where equal ones change places: the page is cut without a loss exactly if
the separators after its middle keep their order (`splitInto_cuts_iff`).
-/

namespace KeyVDB

section Parts

variable {α : Type} [CellValue α] [CellCodec α] {p : RawPage} {n : Node α}
  {placed : List (Placed α)}

/-! ## The walk -/

omit [CellCodec α] in
/-- The walk over the slots is the walk over the cells. -/
theorem splitScan_eq {cells : List (Bytes × α)} {bytesAt : Nat → Except Exn Nat}
    (hat : ∀ i c, cells[i]? = some c → bytesAt i = .ok (cellCost c)) {half k i acc : Nat}
    (hk : i + k = cells.length) :
    RawPage.splitScan bytesAt half k i acc =
      .ok (Node.splitIdx half (cells.drop i) i acc) := by
  induction k generalizing i acc with
  | zero =>
    rw [List.drop_eq_nil_of_le (by omega)]
    rfl
  | succ k ih =>
    have hi : i < cells.length := by omega
    rw [List.drop_eq_getElem_cons hi, RawPage.splitScan, hat i _ (List.getElem?_eq_getElem hi),
      Node.splitIdx]
    simp only [bind, Except.bind]
    split
    · rfl
    · exact ih (by omega)

theorem Laid.freeSpace_eq (h : Laid p n placed) : p.freeSpace = .ok n.freeSpace := by
  have hbounds := n.bounds
  have hfree : n.freeEnd = 32 + 2 * n.numKeys := rfl
  rw [RawPage.freeSpace, h.freeEnd, h.cellEnd, if_pos (by omega)]
  rfl

/-! ## The copy -/

/-- Where the same cells can be copied into the node, they can be copied into the page. -/
theorem copyFrom_eq {insert : Node α → Bytes → α → Bool × Node α} {room : String}
    {put : RawPage → Nat → Except Exn (Bool × RawPage)} {cells : List (Bytes × α)}
    (hput : ∀ {q : RawPage} {m : Node α} {l : List (Placed α)}, Laid q m l →
      ∀ i c, cells[i]? = some c → ∃ q' l', put q i = .ok ((insert m c.1 c.2).1, q') ∧
        Laid q' (insert m c.1 c.2).2 l')
    {right : RawPage} {r r' : Node α} {l : List (Placed α)} (h : Laid right r l) {k i : Nat}
    (hk : i + k = cells.length)
    (hcopy : Node.copyCells insert room r (cells.drop i) = .ok r') :
    ∃ right' l', RawPage.copyFrom put k i right = .ok right' ∧ Laid right' r' l' := by
  induction k generalizing right r l i with
  | zero =>
    rw [List.drop_eq_nil_of_le (by omega)] at hcopy
    cases hcopy
    exact ⟨right, l, rfl, h⟩
  | succ k ih =>
    have hi : i < cells.length := by omega
    rw [List.drop_eq_getElem_cons hi, Node.copyCells] at hcopy
    obtain ⟨q, l', hq, h'⟩ := hput h i _ (List.getElem?_eq_getElem hi)
    rw [RawPage.copyFrom, hq]
    cases hins : insert r cells[i].1 cells[i].2 with
    | mk ok r₁ =>
      rw [hins] at hcopy h'
      cases ok with
      | false => cases hcopy
      | true => exact ih h' (by omega) hcopy

/-! ## The removal -/

/-- Removing slot by slot from the end leaves the cells before `idx`. -/
theorem removeDownTo_eq (h : Laid p n placed) (idx : Nat) {i : Nat} (hi : i = n.numKeys) :
    ∃ p' placed', RawPage.removeDownTo idx i p = .ok p' ∧ Laid p' (n.removeFrom idx) placed' := by
  induction i generalizing p n placed with
  | zero =>
    have hnil : n.cells = [] := List.length_eq_zero_iff.mp hi.symm
    have hsame : n.removeFrom idx = n :=
      Node.eq_of_fields rfl rfl (by rw [Node.removeFrom_cells, hnil, List.take_nil])
    exact ⟨p, placed, rfl, hsame.symm ▸ h⟩
  | succ i ih =>
    have hlen : n.cells.length = i + 1 := hi.symm
    rw [RawPage.removeDownTo]
    split
    · next hle =>
      have hlast : i < n.numKeys := by omega
      obtain ⟨p₁, hremove, h₁⟩ := h.removeCell_eq hlast
      have hnum : i = (n.removeCell i).numKeys := by
        rw [Node.numKeys, Node.removeCell_cells, List.length_eraseIdx_of_lt (by omega), hlen]
        rfl
      obtain ⟨p', placed', hrest, h'⟩ := ih h₁ hnum
      have hsame : (n.removeCell i).removeFrom idx = n.removeFrom idx :=
        Node.eq_of_fields rfl rfl (List.take_eraseIdx_eq_take_of_le n.cells idx i hle)
      refine ⟨p', placed', ?_, hsame ▸ h'⟩
      rw [hremove]
      exact hrest
    · next hgt =>
      have hsame : n.removeFrom idx = n :=
        Node.eq_of_fields rfl rfl (List.take_of_length_le (by omega))
      exact ⟨p, placed, rfl, hsame.symm ▸ h⟩

theorem splitCheck_laid (h : Laid p n placed) {right : RawPage} {r : Node α}
    {l : List (Placed α)} (hr : Laid right r l) (hlen : 2 ≤ n.cells.length) (hnil : r.cells = []) :
    RawPage.splitCheck p right = .ok () := by
  rw [RawPage.splitCheck, h.numKeys, hr.numKeys, Node.numKeys, Node.numKeys, hnil,
    if_neg (not_lt.mpr hlen)]
  rfl

end Parts

/-! ## Leaves -/

/-- The two leaves after a cut before the slot `i`. -/
structure LeafCut (cells : List (Bytes × Bytes)) (i : Nat) (left right : RawPage) (sep : Bytes) :
    Prop where
  interior : 1 ≤ i ∧ i ≤ cells.length - 1
  kept : left.liveCells Bytes left.numKeys 0 = .ok (cells.take i)
  moved : right.liveCells Bytes right.numKeys 0 = .ok (cells.drop i)
  sep_eq : right.keyAt 0 = .ok sep
  half : i = 1 ∨ cellsCost (cells.take i) ≤ cellsCost cells / 2

theorem leafCellBytes_eq {p : RawPage} {n : Node Bytes} {placed : List (Placed Bytes)}
    (h : Laid p n placed) (i : Nat) (c : Bytes × Bytes) (hc : n.cells[i]? = some c) :
    p.leafCellBytes i = .ok (cellCost c) := by
  simp only [RawPage.leafCellBytes, RawPage.valueAt, h.keyAt_eq, h.payloadAt_eq, Node.keyAt,
    Node.valueAt, hc, bind, Except.bind, pure, Except.pure, cellCost, cellSize, totalCellCost,
    Nat.add_comm]

theorem putLeafCell_eq {p : RawPage} {n : Node Bytes} {placed : List (Placed Bytes)}
    (h : Laid p n placed) {q : RawPage} {m : Node Bytes} {l : List (Placed Bytes)}
    (hq : Laid q m l) (i : Nat) (c : Bytes × Bytes) (hc : n.cells[i]? = some c) :
    ∃ q' l', p.putLeafCell q i = .ok ((m.insertLeafCell c.1 c.2).1, q') ∧
      Laid q' (m.insertLeafCell c.1 c.2).2 l' := by
  obtain ⟨q', l', hins, h'⟩ := hq.insertLeafCell_eq c.1 c.2
  refine ⟨q', l', ?_, h'⟩
  simp only [RawPage.putLeafCell, RawPage.valueAt, h.keyAt_eq, h.payloadAt_eq, Node.keyAt,
    Node.valueAt, hc, bind, Except.bind, hins]

/-- A leaf without dead bytes is cut into two leaves. -/
theorem Laid.splitLeafInto {p right : RawPage} {n r : Node Bytes}
    {placed l : List (Placed Bytes)} (h : Laid p n placed) (hr : Laid right r l)
    (hs : Sorted n.cells) (hn : n.Compacted) (hlen : 2 ≤ n.cells.length) (hnil : r.cells = [])
    (id rightId : PageId) : ∃ left right' sep i,
      p.splitLeafInto right id rightId = .ok (left, right', sep) ∧
        LeafCut n.cells i left right' sep := by
  obtain ⟨a, c, b, hcut⟩ := Node.exists_splitCells hlen
  obtain ⟨-, hcells, hat, hne⟩ := Node.splitCells_eq_some hcut
  obtain ⟨-, -, hhalf, -⟩ := splitCells_iff_midpoint.mp hcut
  have hidx : Node.splitIdx ((NODE_USABLE_SIZE - n.freeSpace) / 2) n.cells 0 0 = a.length :=
    hn.splitAt_eq.trans hat.symm
  have hscan : RawPage.splitScan p.leafCellBytes ((NODE_USABLE_SIZE - n.freeSpace) / 2)
      p.numKeys 0 0 = .ok a.length := by
    rw [splitScan_eq (leafCellBytes_eq h) (by rw [h.numKeys, Node.numKeys, Nat.zero_add]),
      List.drop_zero, hidx]
  have hkey : p.keyAt a.length = .ok c.1 := by rw [h.keyAt_eq, Node.keyAt_middle hcells]
  -- the right page gets the cells from the cut on
  have h₁ := hr.setHdrId .parentId p.hdr.parentId
  have hdrop : n.cells.drop a.length = c :: b := by rw [hcells, List.drop_left]
  have htake : n.cells.take a.length = a := by rw [hcells, List.take_left]
  obtain ⟨r₂, hcopy, hcells₂, -⟩ := Node.copyCells_spec Node.appends_insertLeafCell
    "ok && \"right node should have room during split\""
    (n := { r with hdr := (right.setHdrId .parentId p.hdr.parentId).hdr }) (c :: b)
    (by
      rw [hnil, List.nil_append, ← hdrop]
      exact hs.sublist (List.drop_sublist _ _))
    (by
      have hcost := n.cost_le
      rw [hcells, cellsCost_append] at hcost
      rw [hnil, List.nil_append]
      omega)
  rw [hnil, List.nil_append] at hcells₂
  rw [← hdrop] at hcopy
  have hrest : a.length + (p.numKeys - a.length) = n.cells.length := by
    rw [h.numKeys, Node.numKeys, hcells, List.length_append]
    omega
  obtain ⟨right₂, l₂, hcopy₂, h₂⟩ := copyFrom_eq
    (fun hq i c hc => putLeafCell_eq h hq i c hc) h₁ hrest hcopy
  -- the left page keeps those before it
  obtain ⟨left, l₃, hremove, h₃⟩ := removeDownTo_eq h a.length h.numKeys
  have hleft := h₃.setHdrId .rightSibling rightId
  have hright := (h₂.setHdrId .rightSibling left.hdr.rightSibling).setHdrId .leftSibling id
  refine ⟨left.setHdrId .rightSibling rightId,
    (right₂.setHdrId .rightSibling left.hdr.rightSibling).setHdrId .leftSibling id, c.1, a.length,
    ?_, ⟨?_, ?_⟩, ?_, ?_, ?_, ?_⟩
  · simp only [RawPage.splitLeafInto, splitCheck_laid h hr hlen hnil, h.freeSpace_eq, hscan, hkey,
      hcopy₂, hremove, bind, Except.bind]
    rfl
  · exact List.length_pos_of_ne_nil hne
  · rw [hcells, List.length_append, List.length_cons]
    omega
  · exact hleft.read
  · rw [hright.read, hdrop]
    exact congrArg Except.ok hcells₂
  · rw [hright.keyAt_eq, Node.keyAt]
    simp only [hcells₂, List.getElem?_cons_zero]
  · rw [htake]
    exact hhalf

/-! ## Internal nodes -/

/-- The two internal pages after the cell `m` was promoted; `after` is what the right page has. -/
structure InternalParts (cells : List (Bytes × PageId)) (m : Nat)
    (after : List (Bytes × PageId)) (left right : RawPage) (sep : Bytes) : Prop where
  interior : 1 ≤ m ∧ m ≤ cells.length - 1
  kept : left.liveCells PageId left.numKeys 0 = .ok (cells.take m)
  promoted : cells[m]? = some (sep, right.hdr.firstChild)
  moved : right.liveCells PageId right.numKeys 0 = .ok after

/-- The right page has the cells after the promoted one, in their order. -/
def InternalCut (cells : List (Bytes × PageId)) (m : Nat) (left right : RawPage) (sep : Bytes) :
    Prop :=
  InternalParts cells m (cells.drop (m + 1)) left right sep

/-- Separators are copied where there is room, each to its slot. -/
theorem copyCells_insertSeparator (room : String) {n : Node PageId}
    (cells : List (Bytes × PageId)) (hcost : cellsCost (n.cells ++ cells) ≤ NODE_USABLE_SIZE) :
    ∃ n', Node.copyCells Node.insertSeparator room n cells = .ok n' ∧
      n'.cells = insertEach n.cells cells ∧ n'.hdr = n.hdr := by
  induction cells generalizing n with
  | nil => exact ⟨n, rfl, rfl, rfl⟩
  | cons c cells ih =>
    have hroom : Room n.cells c := by
      simp only [cellsCost_append, cellsCost_cons] at hcost
      rw [Room]
      omega
    obtain ⟨n₁, hins, hcells, hhdr⟩ := Node.place_room (lowerBound n.cells c.1) hroom
    have hcost₁ : cellsCost (n₁.cells ++ cells) ≤ NODE_USABLE_SIZE := by
      have hperm : n₁.cells.Perm (n.cells ++ [c]) := by
        rw [hcells]
        exact insertEach_perm n.cells [c]
      have hsum : cellsCost n₁.cells = cellsCost (n.cells ++ [c]) :=
        (hperm.map cellCost).sum_eq
      rw [cellsCost_append, hsum, ← cellsCost_append, List.append_assoc]
      exact hcost
    obtain ⟨n', hcopy, hcells', hhdr'⟩ := ih hcost₁
    refine ⟨n', ?_, ?_, hhdr'.trans hhdr⟩
    · rw [Node.copyCells, Node.insertSeparator, hins]
      exact hcopy
    · rw [hcells', hcells]
      rfl

theorem internalCellBytes_eq {p : RawPage} {n : Node PageId} {placed : List (Placed PageId)}
    (h : Laid p n placed) (i : Nat) (c : Bytes × PageId) (hc : n.cells[i]? = some c) :
    p.internalCellBytes i = .ok (cellCost c) := by
  simp only [RawPage.internalCellBytes, h.keyAt_eq, Node.keyAt, hc, bind, Except.bind, pure,
    Except.pure, cellCost, cellSize, totalCellCost, Nat.add_comm]

theorem putSeparator_eq {p : RawPage} {n : Node PageId} {placed : List (Placed PageId)}
    (h : Laid p n placed) {q : RawPage} {m : Node PageId} {l : List (Placed PageId)}
    (hq : Laid q m l) (i : Nat) (c : Bytes × PageId) (hc : n.cells[i]? = some c) :
    ∃ q' l', p.putSeparator q i = .ok ((m.insertSeparator c.1 c.2).1, q') ∧
      Laid q' (m.insertSeparator c.1 c.2).2 l' := by
  have hword : InWord 4 c.2 := h.storable c (List.mem_of_getElem? hc)
  obtain ⟨q', l', hins, h'⟩ := hq.insertSeparator_eq c.1 hword
  refine ⟨q', l', ?_, h'⟩
  simp only [RawPage.putSeparator, RawPage.childAt, h.keyAt_eq, h.payloadAt_eq, Node.keyAt,
    Node.valueAt, hc, bind, Except.bind, hins]

/-- An internal page without dead bytes is cut into two. -/
theorem Laid.splitInternalInto {p right : RawPage} {n r : Node PageId}
    {placed l : List (Placed PageId)} (h : Laid p n placed) (hr : Laid right r l)
    (hn : n.Compacted) (hlen : 2 ≤ n.cells.length) (hnil : r.cells = []) :
    ∃ a c b left right' sep, Midpoint n.cells a c b ∧
      p.splitInternalInto right = .ok (left, right', sep) ∧
      InternalParts n.cells a.length (insertEach [] b) left right' sep := by
  obtain ⟨a, c, b, hcut⟩ := Node.exists_splitCells hlen
  obtain ⟨-, hcells, hat, hne⟩ := Node.splitCells_eq_some hcut
  have hidx : Node.splitIdx ((NODE_USABLE_SIZE - n.freeSpace) / 2) n.cells 0 0 = a.length :=
    hn.splitAt_eq.trans hat.symm
  have hscan : RawPage.splitScan p.internalCellBytes ((NODE_USABLE_SIZE - n.freeSpace) / 2)
      p.numKeys 0 0 = .ok a.length := by
    rw [splitScan_eq (internalCellBytes_eq h) (by rw [h.numKeys, Node.numKeys, Nat.zero_add]),
      List.drop_zero, hidx]
  have hpos : a.length ≠ 0 := fun e => hne (List.length_eq_zero_iff.mp e)
  have hnum : p.numKeys = a.length + (b.length + 1) := by
    rw [h.numKeys, Node.numKeys, hcells, List.length_append, List.length_cons]
  -- the walk ends at an interior slot, so the clamps leave it alone
  have hclamp : (if p.numKeys - 1 ≤ a.length then p.numKeys - 1 else a.length) = a.length := by
    split <;> omega
  have hkey : p.keyAt a.length = .ok c.1 := by rw [h.keyAt_eq, Node.keyAt_middle hcells]
  have hchild : p.childAt a.length = .ok c.2 := by
    rw [RawPage.childAt, h.payloadAt_eq, Node.valueAt_middle hcells]
  have hword : InWord 4 c.2 := h.storable c (by rw [hcells]; simp)
  have h₁ := (hr.setHdrId .parentId p.hdr.parentId).setHdrId .firstChild c.2
  have hdrop : n.cells.drop (a.length + 1) = b := by rw [hcells]; simp
  have htake : n.cells.take a.length = a := by rw [hcells, List.take_left]
  obtain ⟨r₂, hcopy, hmoved, hhdr⟩ := copyCells_insertSeparator
    "ok && \"right node should have room during split\""
    (n := { r with
      hdr := ((right.setHdrId .parentId p.hdr.parentId).setHdrId .firstChild c.2).hdr }) b
    (by
      have hcost := n.cost_le
      rw [hcells, cellsCost_append, cellsCost_cons] at hcost
      rw [hnil, List.nil_append]
      omega)
  rw [hnil] at hmoved
  rw [← hdrop] at hcopy
  have hrest : a.length + 1 + (p.numKeys - (a.length + 1)) = n.cells.length := by
    rw [← Node.numKeys, ← h.numKeys]
    omega
  obtain ⟨right₂, l₂, hcopy₂, h₂⟩ := copyFrom_eq
    (fun hq i c hc => putSeparator_eq h hq i c hc) h₁ hrest hcopy
  obtain ⟨left, l₃, hremove, h₃⟩ := removeDownTo_eq h a.length h.numKeys
  have hfirst : right₂.hdr.firstChild = c.2 := by
    rw [h₂.hdr, hhdr]
    exact Buffer.int_setInt (by decide) hword
  refine ⟨a, c, b, left, right₂, c.1, splitCells_iff_midpoint.mp hcut, ?_, ⟨?_, ?_⟩, ?_, ?_, ?_⟩
  · simp only [RawPage.splitInternalInto, splitCheck_laid h hr hlen hnil, h.freeSpace_eq, hscan,
      hpos, hclamp, hkey, hchild, hcopy₂, hremove, bind, Except.bind, if_false]
    rfl
  · omega
  · rw [← Node.numKeys, ← h.numKeys]
    omega
  · exact h₃.read
  · rw [hfirst, hcells]
    simp
  · rw [h₂.read, hmoved]

/-- The cut is without a loss exactly if the separators after the middle keep their order. -/
theorem Laid.internalCut_iff {p right : RawPage} {n r : Node PageId}
    {placed l : List (Placed PageId)} (h : Laid p n placed) (hr : Laid right r l)
    (hn : n.Compacted) (hlen : 2 ≤ n.cells.length) (hnil : r.cells = []) :
    (∃ left right' sep m, p.splitInternalInto right = .ok (left, right', sep) ∧
      InternalCut n.cells m left right' sep) ↔
    ∃ a c b, Midpoint n.cells a c b ∧ KeepsOrder b := by
  obtain ⟨a, c, b, left, right', sep, hmid, hsplit, hparts⟩ := h.splitInternalInto hr hn hlen hnil
  have hdrop : n.cells.drop (a.length + 1) = b := by rw [hmid.cells_eq]; simp
  constructor
  · intro hcut
    obtain ⟨left₁, right₁, sep₁, m, hsplit₁, hcut⟩ := hcut
    cases hsplit.symm.trans hsplit₁
    -- the left page says which cell was promoted
    have hm : m = a.length := by
      have htake := congrArg List.length (Except.ok.inj (hparts.kept.symm.trans hcut.kept))
      have hle := hparts.interior.2
      have hle' := hcut.interior.2
      simp only [List.length_take] at htake
      omega
    have hsame := Except.ok.inj (hparts.moved.symm.trans hcut.moved)
    rw [hm, hdrop] at hsame
    exact ⟨a, c, b, hmid, insertEach_nil_iff.mp hsame⟩
  · intro hkeeps
    obtain ⟨a', c', b', hmid', hkeeps⟩ := hkeeps
    cases (splitCells_iff_midpoint.mpr hmid).symm.trans (splitCells_iff_midpoint.mpr hmid')
    rw [insertEach_nil_iff.mpr hkeeps, ← hdrop] at hparts
    exact ⟨left, right', sep, a.length, hsplit, hparts⟩

/-! ## Pages in any state of their lives -/

/-- A page whose heap has no dead bytes holds a compacted node. -/
theorem Laid.compacted {α : Type} [CellValue α] [CellCodec α] {p : RawPage} {n : Node α}
    {placed : List (Placed α)} (h : Laid p n placed) {cells : List (Bytes × α)}
    (hread : p.liveCells α p.numKeys 0 = .ok cells)
    (hheap : p.cellEnd + heapSize cells = NODE_DATA_SIZE) : n.cells = cells ∧ n.Compacted := by
  cases h.read.symm.trans hread
  refine ⟨rfl, ?_⟩
  rw [Node.Compacted, ← h.cellEnd]
  exact hheap

theorem Laid.cells_eq_nil {α : Type} [CellValue α] [CellCodec α] {p : RawPage} {n : Node α}
    {placed : List (Placed α)} (h : Laid p n placed) (hzero : p.numKeys = 0) : n.cells = [] :=
  List.length_eq_zero_iff.mp (h.numKeys.symm.trans hzero)

/-- **`split_into` cuts a compacted page at an interior point.** For a leaf and an internal page in
any state of its life with two cells or more and no dead bytes in its heap, and an empty page of the
same type, it returns, and the cells of the page are in the two pages and the promoted cell. A leaf
is always cut without a loss; an internal page exactly if the separators after its middle do not
decrease and those with one key read the same backwards. -/
theorem splitInto_cuts_iff (parentId rightParentId : PageId) :
    (∀ (steps rightSteps : List LeafStep) (p right : RawPage) (cells : List (Bytes × Bytes))
      (id rightId : WordId),
      steps.foldlM LeafStep.exec (RawPage.initLeaf parentId) = .ok p →
      rightSteps.foldlM LeafStep.exec (RawPage.initLeaf rightParentId) = .ok right →
      right.numKeys = 0 → p.liveCells Bytes p.numKeys 0 = .ok cells →
      p.cellEnd + heapSize cells = NODE_DATA_SIZE → 2 ≤ cells.length →
      ∃ left right' sep i, p.splitLeafInto right id.val rightId.val = .ok (left, right', sep) ∧
        LeafCut cells i left right' sep) ∧
    (∀ (steps rightSteps : List InternalStep) (p right : RawPage)
      (cells : List (Bytes × PageId)),
      steps.foldlM InternalStep.exec (RawPage.initInternal parentId) = .ok p →
      rightSteps.foldlM InternalStep.exec (RawPage.initInternal rightParentId) = .ok right →
      right.numKeys = 0 → p.liveCells PageId p.numKeys 0 = .ok cells →
      p.cellEnd + heapSize cells = NODE_DATA_SIZE → 2 ≤ cells.length →
      (∃ left right' sep m after, p.splitInternalInto right = .ok (left, right', sep) ∧
        InternalParts cells m after left right' sep ∧ after.Perm (cells.drop (m + 1))) ∧
      ((∃ left right' sep m, p.splitInternalInto right = .ok (left, right', sep) ∧
        InternalCut cells m left right' sep) ↔
      ∃ a c b, Midpoint cells a c b ∧ KeepsOrder b)) := by
  constructor
  · intro steps rightSteps p right cells id rightId hrun hright hzero hread hheap hlen
    obtain ⟨n, placed, h, hs⟩ := LeafLaid.of_run hrun
    obtain ⟨r, l, hr, -⟩ := LeafLaid.of_run hright
    obtain ⟨rfl, hn⟩ := h.compacted hread hheap
    exact h.splitLeafInto hr hs hn hlen (hr.cells_eq_nil hzero) id.val rightId.val
  · intro steps rightSteps p right cells hrun hright hzero hread hheap hlen
    obtain ⟨n, placed, h⟩ := InternalLaid.of_run hrun
    obtain ⟨r, l, hr⟩ := InternalLaid.of_run hright
    obtain ⟨rfl, hn⟩ := h.compacted hread hheap
    have hnil := hr.cells_eq_nil hzero
    constructor
    · obtain ⟨a, c, b, left, right', sep, hmid, hsplit, hparts⟩ :=
        h.splitInternalInto hr hn hlen hnil
      refine ⟨left, right', sep, a.length, _, hsplit, hparts, ?_⟩
      have hdrop : n.cells.drop (a.length + 1) = b := by rw [hmid.cells_eq]; simp
      rw [hdrop]
      exact insertEach_perm [] b
    · exact h.internalCut_iff hr hn hlen hnil

/-- A page with three cells of different sizes. -/
def threeCells : List LeafStep :=
  [.op (.insertLeafCell [1] [7, 7, 7, 7, 7, 7]), .op (.insertLeafCell [2] []),
    .op (.insertLeafCell [3] [8])]

def threeSeparators : List InternalStep :=
  [.setHdrId .firstChild (smallId 3), .op (.insertSeparator [4] (smallId 9)),
    .op (.insertSeparator [6] (smallId 7)), .op (.insertSeparator [8] (smallId 5))]

/-- What a page has at the end of a life, and where its heap begins. -/
def InternalStep.page (steps : List InternalStep) :
    Option (Except Exn (List (Bytes × PageId)) × Nat) :=
  (steps.foldlM InternalStep.exec (RawPage.initInternal INVALID_PAGE_ID)).toOption.map fun p =>
    (p.liveCells PageId p.numKeys 0, p.cellEnd)

theorem InternalStep.exists_of_page {steps : List InternalStep}
    {r : Except Exn (List (Bytes × PageId)) × Nat} (h : InternalStep.page steps = some r) :
    ∃ p, steps.foldlM InternalStep.exec (RawPage.initInternal INVALID_PAGE_ID) = .ok p ∧
      (p.liveCells PageId p.numKeys 0, p.cellEnd) = r := by
  unfold InternalStep.page at h
  cases hrun : steps.foldlM InternalStep.exec (RawPage.initInternal INVALID_PAGE_ID) with
  | error e =>
    rw [hrun] at h
    cases h
  | ok p =>
    rw [hrun] at h
    exact ⟨p, rfl, Option.some.inj h⟩

/-- They are cut after the first cell, and at the second separator. -/
theorem splitInto_cuts_three :
    (∃ p left right sep i,
      threeCells.foldlM LeafStep.exec (RawPage.initLeaf INVALID_PAGE_ID) = .ok p ∧
      p.splitLeafInto (RawPage.initLeaf INVALID_PAGE_ID) 4 5 = .ok (left, right, sep) ∧
      LeafCut [([1], [7, 7, 7, 7, 7, 7]), ([2], []), ([3], [8])] i left right sep) ∧
    ∃ p left right sep m,
      threeSeparators.foldlM InternalStep.exec (RawPage.initInternal INVALID_PAGE_ID) = .ok p ∧
      p.splitInternalInto (RawPage.initInternal INVALID_PAGE_ID) = .ok (left, right, sep) ∧
      InternalCut [([4], 9), ([6], 7), ([8], 5)] m left right sep := by
  constructor
  · have hok : ((threeCells.foldlM LeafStep.exec (RawPage.initLeaf INVALID_PAGE_ID)).toOption.map
        fun p => (p.liveCells Bytes p.numKeys 0, p.cellEnd)) =
          some (.ok [([1], [7, 7, 7, 7, 7, 7]), ([2], []), ([3], [8])], 4050) := by
      decide +kernel
    cases hrun : threeCells.foldlM LeafStep.exec (RawPage.initLeaf INVALID_PAGE_ID) with
    | error e => rw [hrun] at hok; cases hok
    | ok p =>
      rw [hrun] at hok
      obtain ⟨hcells, hend⟩ := Prod.mk.inj (Option.some.inj hok)
      obtain ⟨left, right, sep, i, hsplit, hcut⟩ :=
        (splitInto_cuts_iff _ INVALID_PAGE_ID).1 threeCells [] p _ _ ⟨4, by decide⟩ ⟨5, by decide⟩
          hrun rfl (by decide +kernel) hcells (by rw [hend]; decide) (by decide)
      exact ⟨p, left, right, sep, i, rfl, hsplit, hcut⟩
  · obtain ⟨p, hrun, hpage⟩ := InternalStep.exists_of_page
      (show InternalStep.page threeSeparators = some (.ok [([4], 9), ([6], 7), ([8], 5)], 4051) by
        decide +kernel)
    obtain ⟨hcells, hend⟩ := Prod.mk.inj hpage
    obtain ⟨-, hiff⟩ := (splitInto_cuts_iff _ INVALID_PAGE_ID).2 threeSeparators [] p _ _ hrun rfl
      (by decide +kernel) hcells (by rw [hend]; decide) (by decide)
    have hmid : Midpoint [([4], 9), ([6], 7), ([8], 5)] [(([4] : Bytes), (9 : PageId))] ([6], 7)
        [([8], 5)] := ⟨rfl, List.cons_ne_nil _ _, Or.inl rfl, by decide⟩
    have hsorted : Sorted [(([8] : Bytes), (5 : PageId))] := List.pairwise_singleton _ _
    obtain ⟨left, right, sep, m, hsplit, hcut⟩ := hiff.mpr ⟨_, _, _, hmid, hsorted.keepsOrder⟩
    exact ⟨p, left, right, sep, m, hrun, hsplit, hcut⟩

/-- A parent whose leaf `7` has borrowed the only cell of its left sibling `6`. -/
def equalSeparators : List InternalStep :=
  [.setHdrId .firstChild (smallId 1), .op (.insertSeparator [2] (smallId 2)),
    .op (.insertSeparator [3] (smallId 4)), .op (.insertSeparator [4] (smallId 5)),
    .op (.insertSeparator [5] (smallId 6)), .op (.insertSeparator [7] (smallId 7)),
    .op (.updateSeparatorKey 4 [5])]

/-- The right page gets the two equal separators in the other order: the keys from `[5]` on lead to
the leaf that has been emptied. -/
theorem not_splitInto_cuts :
    ∃ p cells, equalSeparators.foldlM InternalStep.exec (RawPage.initInternal INVALID_PAGE_ID) =
        .ok p ∧
      p.liveCells PageId p.numKeys 0 = .ok cells ∧ p.cellEnd + heapSize cells = NODE_DATA_SIZE ∧
      2 ≤ cells.length ∧
      ¬ ∃ left right sep m, p.splitInternalInto (RawPage.initInternal INVALID_PAGE_ID) =
          .ok (left, right, sep) ∧ InternalCut cells m left right sep := by
  obtain ⟨p, hrun, hpage⟩ := InternalStep.exists_of_page
    (show InternalStep.page equalSeparators =
      some (.ok [([2], 2), ([3], 4), ([4], 5), ([5], 6), ([5], 7)], 4037) by decide +kernel)
  obtain ⟨hcells, hend⟩ := Prod.mk.inj hpage
  have hheap : p.cellEnd + heapSize [(([2] : Bytes), (2 : PageId)), ([3], 4), ([4], 5), ([5], 6),
      ([5], 7)] = NODE_DATA_SIZE := by
    rw [hend]
    decide
  refine ⟨p, _, hrun, hcells, hheap, by decide, ?_⟩
  obtain ⟨n, placed, h⟩ := InternalLaid.of_run hrun
  obtain ⟨r, l, hr⟩ := InternalLaid.of_run
    (rfl : [].foldlM InternalStep.exec (RawPage.initInternal INVALID_PAGE_ID) = .ok _)
  obtain ⟨hn, hcompact⟩ := h.compacted hcells hheap
  rw [← hn, h.internalCut_iff hr hcompact (by rw [hn]; decide)
    (hr.cells_eq_nil (by decide +kernel)), hn]
  intro hex
  obtain ⟨a, c, b, hmid, hkeeps⟩ := hex
  have hfound : Midpoint [(([2] : Bytes), (2 : PageId)), ([3], 4), ([4], 5), ([5], 6), ([5], 7)]
      [([2], 2), ([3], 4)] ([4], 5) [([5], 6), ([5], 7)] :=
    ⟨rfl, List.cons_ne_nil _ _, Or.inr (by decide), by decide⟩
  cases (splitCells_iff_midpoint.mpr hfound).symm.trans (splitCells_iff_midpoint.mpr hmid)
  exact absurd (hkeeps.2 [5]) (by decide)

end KeyVDB
