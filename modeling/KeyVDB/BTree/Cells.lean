import KeyVDB.BTree.Tree

/-!
# What the node operations do to the cells

Each operation of a node as a rewriting of its list of cells, and exactly when it has room. All that
matters for room is the cost of the live cells: whatever the fragmentation, an operation that does
not find the space compacts the node first.
-/

namespace KeyVDB

section Room

variable {α : Type} [CellValue α]

/-- The cells leave room for one more. -/
def Room (cells : List (Bytes × α)) (c : Bytes × α) : Prop :=
  cellsCost cells + cellCost c ≤ NODE_USABLE_SIZE

instance (cells : List (Bytes × α)) (c : Bytes × α) : Decidable (Room cells c) :=
  inferInstanceAs (Decidable (_ ≤ _))

theorem cellCost_mk (key : Bytes) (a : α) :
    cellCost (key, a) = totalCellCost (cellSize key a) := rfl

theorem cellCost_pos (c : Bytes × α) : 0 < cellCost c := by
  simp only [cellCost, totalCellCost, SLOT_SIZE]
  omega

namespace Node

@[simp] theorem compact_cells (n : Node α) : n.compact.cells = n.cells := rfl

@[simp] theorem compact_hdr (n : Node α) : n.compact.hdr = n.hdr := rfl

@[simp] theorem removeCell_cells (n : Node α) (slot : Nat) :
    (n.removeCell slot).cells = n.cells.eraseIdx slot := rfl

@[simp] theorem removeCell_hdr (n : Node α) (slot : Nat) : (n.removeCell slot).hdr = n.hdr := rfl

@[simp] theorem removeFrom_cells (n : Node α) (slot : Nat) :
    (n.removeFrom slot).cells = n.cells.take slot := rfl

@[simp] theorem removeFrom_hdr (n : Node α) (slot : Nat) : (n.removeFrom slot).hdr = n.hdr := rfl

/-- No bytes are lost in the heap. -/
def Compacted (n : Node α) : Prop := n.cellEnd + heapSize n.cells = NODE_DATA_SIZE

theorem cost_add_freeSpace_le (n : Node α) :
    cellsCost n.cells + n.freeSpace ≤ NODE_USABLE_SIZE := by
  have hslots := n.slots_le
  have hheap := n.heap_le
  rw [cellsCost_eq]
  simp only [freeSpace, freeEnd, numKeys, NODE_DATA_SIZE, NODE_USABLE_SIZE, SLOT_ARRAY_START,
    DATA_SIZE, PAGE_SIZE, HEADER_SIZE, NODE_HEADER_SIZE] at *
  omega

theorem cost_le (n : Node α) : cellsCost n.cells ≤ NODE_USABLE_SIZE :=
  (Nat.le_add_right _ _).trans n.cost_add_freeSpace_le

theorem Compacted.cost_add_freeSpace {n : Node α} (h : n.Compacted) :
    cellsCost n.cells + n.freeSpace = NODE_USABLE_SIZE := by
  have hslots := n.slots_le
  unfold Compacted at h
  rw [cellsCost_eq]
  simp only [freeSpace, freeEnd, numKeys, NODE_DATA_SIZE, NODE_USABLE_SIZE, SLOT_ARRAY_START,
    DATA_SIZE, PAGE_SIZE, HEADER_SIZE, NODE_HEADER_SIZE] at *
  omega

theorem compacted_compact (n : Node α) : n.compact.Compacted := by
  have hheap := n.heap_le
  unfold Compacted compact
  dsimp only
  omega

theorem isFull_eq_false {n : Node α} {size : Nat} :
    n.isFull size = false ↔ totalCellCost size ≤ n.freeSpace := by
  simp [isFull]

theorem Compacted.isFull_iff {n : Node α} (h : n.Compacted) (key : Bytes) (a : α) :
    n.isFull (cellSize key a) = false ↔ Room n.cells (key, a) := by
  have hcost := h.cost_add_freeSpace
  rw [isFull_eq_false, Room, cellCost_mk]
  omega

/-- An underflowing node is less than half full. -/
theorem cost_lt_of_underflow {n : Node α} (h : n.underflow = true) :
    cellsCost n.cells < NODE_USABLE_SIZE / 2 := by
  have hcost := n.cost_add_freeSpace_le
  have hlt : NODE_USABLE_SIZE - n.freeSpace < NODE_USABLE_SIZE / 2 := by simpa [underflow] using h
  omega

/-! ## Insertion -/

theorem place_room {n : Node α} {key : Bytes} {a : α} (slot : Nat) (h : Room n.cells (key, a)) :
    ∃ n', n.place slot key a = (true, n') ∧ n'.cells = n.cells.insertIdx slot (key, a) ∧
      n'.hdr = n.hdr := by
  unfold place
  cases hfull : n.isFull (cellSize key a) with
  | true =>
    have hroom := (n.compacted_compact.isFull_iff key a).mpr h
    simp only [if_true, hroom, dite_true]
    exact ⟨_, rfl, rfl, rfl⟩
  | false =>
    simp only [Bool.false_eq_true, if_false, hfull, dite_true]
    exact ⟨_, rfl, rfl, rfl⟩

theorem place_no_room {n : Node α} {slot : Nat} {key : Bytes} {a : α}
    (h : ¬ Room n.cells (key, a)) : n.place slot key a = (false, n.compact) := by
  have hcost := n.cost_add_freeSpace_le
  have hfull : n.isFull (cellSize key a) = true := by
    by_contra hfull
    refine h ?_
    have hle := isFull_eq_false.mp (Bool.eq_false_iff.mpr hfull)
    rw [Room, cellCost_mk]
    omega
  have hfull' : ¬ n.compact.isFull (cellSize key a) = false :=
    fun hroom => h ((n.compacted_compact.isFull_iff key a).mp hroom)
  simp only [place, hfull, if_true]
  rw [dif_neg hfull']

/-- A cell that was placed had room. -/
theorem place_eq_true {n n' : Node α} {slot : Nat} {key : Bytes} {a : α}
    (h : n.place slot key a = (true, n')) :
    Room n.cells (key, a) ∧ n'.cells = n.cells.insertIdx slot (key, a) ∧ n'.hdr = n.hdr := by
  by_cases hroom : Room n.cells (key, a)
  · obtain ⟨m, hplace, hcells, hhdr⟩ := place_room slot hroom
    rw [hplace] at h
    cases h
    exact ⟨hroom, hcells, hhdr⟩
  · rw [place_no_room hroom] at h
    cases h

end Node

end Room

/-- The cells with other keys. -/
def others {α : Type} (key : Bytes) (cells : List (Bytes × α)) : List (Bytes × α) :=
  cells.filter fun c => c.1 ≠ key

theorem others_eq {α : Type} {key : Bytes} {cells : List (Bytes × α)}
    (h : ∀ c ∈ cells, c.1 ≠ key) : others key cells = cells :=
  List.filter_eq_self.mpr (by simpa using h)

theorem others_at {α : Type} {key : Bytes} {v : α} {a b : List (Bytes × α)}
    (h : Sorted (a ++ (key, v) :: b)) : others key (a ++ (key, v) :: b) = a ++ b := by
  obtain ⟨hlt, hgt⟩ := h.at_slot
  have ha : others key a = a := others_eq fun c hc => (hlt c hc).ne
  have hb : others key b = b := others_eq fun c hc => (hgt c hc).ne'
  unfold others at *
  rw [List.filter_append, List.filter_cons_of_neg (by simp), ha, hb]

theorem slotGet_others {α : Type} {key k : Bytes} (h : k ≠ key) (cells : List (Bytes × α)) :
    slotGet (others key cells) k = slotGet cells k := by
  induction cells with
  | nil => rfl
  | cons c cells ih =>
    unfold others at ih ⊢
    by_cases hc : c.1 = key
    · rw [List.filter_cons_of_neg (by simpa using hc), ih, slotGet_cons,
        if_neg (hc ▸ Ne.symm h)]
    · rw [List.filter_cons_of_pos (by simpa using hc), slotGet_cons, slotGet_cons, ih]

namespace Node

theorem insertLeafCell_absent {n : Node Bytes} {key : Bytes} (value : Bytes)
    (h : ∀ c ∈ n.cells[lowerBound n.cells key]?, c.1 ≠ key) :
    n.insertLeafCell key value = n.place (lowerBound n.cells key) key value := by
  unfold insertLeafCell
  dsimp only
  split
  · rfl
  · next k old hc => rw [dif_neg (h (k, old) hc)]

theorem insertLeafCell_same {n : Node Bytes} {key old value : Bytes}
    (h : n.cells[lowerBound n.cells key]? = some (key, old)) (hlen : old.length = value.length) :
    ∃ n', n.insertLeafCell key value = (true, n') ∧
      n'.cells = n.cells.set (lowerBound n.cells key) (key, value) ∧ n'.hdr = n.hdr := by
  unfold insertLeafCell
  dsimp only
  split
  · next hc => rw [h] at hc; cases hc
  · next k old' hc =>
    rw [h] at hc
    cases hc
    rw [dif_pos rfl, dif_pos hlen]
    exact ⟨_, rfl, rfl, rfl⟩

theorem insertLeafCell_other {n : Node Bytes} {key old value : Bytes}
    (h : n.cells[lowerBound n.cells key]? = some (key, old)) (hlen : old.length ≠ value.length) :
    n.insertLeafCell key value = (n.removeCell (lowerBound n.cells key)).place
      (lowerBound (n.removeCell (lowerBound n.cells key)).cells key) key value := by
  unfold insertLeafCell
  dsimp only
  split
  · next hc => rw [h] at hc; cases hc
  · next k old' hc =>
    rw [h] at hc
    cases hc
    rw [dif_pos rfl, dif_neg hlen]

/-- A cell placed at a cut. -/
theorem place_cut {α : Type} [CellValue α] {n : Node α} {a b : List (Bytes × α)} {key : Bytes}
    {v : α} (hn : n.cells = a ++ b) (hlt : ∀ c ∈ a, c.1 < key) (hgt : ∀ c ∈ b, key < c.1) :
    (Room (a ++ b) (key, v) → ∃ n', n.place (lowerBound n.cells key) key v = (true, n') ∧
      n'.cells = a ++ (key, v) :: b ∧ n'.hdr = n.hdr) ∧
    (¬ Room (a ++ b) (key, v) →
      n.place (lowerBound n.cells key) key v = (false, n.compact)) := by
  have hcut : Cut a b key := ⟨hlt, fun c hc => (hgt c hc).le⟩
  constructor
  · intro hroom
    obtain ⟨n', hplace, hcells, hhdr⟩ := place_room (lowerBound n.cells key) (hn ▸ hroom)
    refine ⟨n', hplace, ?_, hhdr⟩
    rw [hcells, hn, hcut.lowerBound, insertIdx_append]
  · intro hroom
    exact place_no_room (hn ▸ hroom)

/-- **`insert_leaf_cell`** takes the cell exactly if there is room beside the cells with other keys;
if not, these are what is left. -/
theorem insertLeafCell_spec {n : Node Bytes} (hs : Sorted n.cells) (key value : Bytes) :
    ∃ a b, others key n.cells = a ++ b ∧ Sorted (a ++ b) ∧ (∀ c ∈ a, c.1 < key) ∧
      (∀ c ∈ b, key < c.1) ∧
      (Room (a ++ b) (key, value) → ∃ n', n.insertLeafCell key value = (true, n') ∧
        n'.cells = a ++ (key, value) :: b ∧ n'.hdr = n.hdr) ∧
      (¬ Room (a ++ b) (key, value) → ∃ n', n.insertLeafCell key value = (false, n') ∧
        n'.cells = a ++ b ∧ n'.hdr = n.hdr ∧ n'.Compacted) := by
  obtain ⟨a, b, hab, hcut⟩ := hs.cut key
  have hslot : lowerBound n.cells key = a.length := by rw [hab, hcut.lowerBound]
  rw [hab] at hs
  rcases hs.cut_cases hcut with ⟨old, b, rfl⟩ | hgt
  · -- the key is there
    obtain ⟨hlt, hgt⟩ := hs.at_slot
    have hget : n.cells[lowerBound n.cells key]? = some (key, old) := by
      rw [hslot, hab]
      simp
    refine ⟨a, b, by rw [hab, others_at hs], hs.remove, hlt, hgt, ?_⟩
    by_cases hlen : old.length = value.length
    · -- the old cell and the new one have the same size, so there is room
      have hroom : Room (a ++ b) (key, value) := by
        have hcost := n.cost_le
        have hsize : cellCost (key, old) = cellCost (key, value) := by
          simp only [cellCost_mk, cellSize, hlen]
        rw [hab] at hcost
        simp only [cellsCost_append, cellsCost_cons, hsize] at hcost
        rw [Room, cellsCost_append]
        omega
      obtain ⟨n', hins, hcells, hhdr⟩ := insertLeafCell_same hget hlen
      refine ⟨fun _ => ⟨n', hins, ?_, hhdr⟩, fun hno => (hno hroom).elim⟩
      rw [hcells, hslot, hab]
      simp
    · have hrem : (n.removeCell (lowerBound n.cells key)).cells = a ++ b := by
        rw [removeCell_cells, hslot, hab, eraseIdx_append_cons]
      obtain ⟨hyes, hno⟩ := place_cut hrem hlt hgt (v := value)
      rw [insertLeafCell_other hget hlen]
      exact ⟨hyes, fun hroom => ⟨_, hno hroom, hrem, rfl, compacted_compact _⟩⟩
  · have habsent : ∀ c ∈ n.cells[lowerBound n.cells key]?, c.1 ≠ key := by
      intro c hc
      rw [hslot, hab, List.getElem?_append_right le_rfl] at hc
      exact (hgt c (List.mem_of_getElem? hc)).ne'
    have hothers : others key n.cells = a ++ b := by
      rw [hab]
      refine others_eq fun c hc => ?_
      rcases List.mem_append.mp hc with hc | hc
      · exact (hcut.lt c hc).ne
      · exact (hgt c hc).ne'
    obtain ⟨hyes, hno⟩ := place_cut hab hcut.lt hgt (v := value)
    rw [insertLeafCell_absent value habsent]
    refine ⟨a, b, hothers, hs, hcut.lt, hgt, hyes, fun hroom => ?_⟩
    exact ⟨_, hno hroom, hab, rfl, compacted_compact _⟩

/-- `insert_separator` between the separators before and after. -/
theorem insertSeparator_spec {n : Node PageId} {a b : List (Bytes × PageId)} {key : Bytes}
    {child : PageId} (hn : n.cells = a ++ b) (hlt : ∀ c ∈ a, c.1 < key)
    (hgt : ∀ c ∈ b, key < c.1) (hroom : Room (a ++ b) (key, child)) :
    ∃ n', n.insertSeparator key child = (true, n') ∧ n'.cells = a ++ (key, child) :: b ∧
      n'.hdr = n.hdr :=
  (place_cut hn hlt hgt).1 hroom

/-- `insert_leaf_cell` succeeds exactly if the cells with other keys leave room. -/
theorem insertLeafCell_done_iff {n : Node Bytes} (hs : Sorted n.cells) (key value : Bytes) :
    (n.insertLeafCell key value).1 = true ↔ Room (others key n.cells) (key, value) := by
  obtain ⟨a, b, hothers, -, -, -, hyes, hno⟩ := insertLeafCell_spec hs key value
  rw [hothers]
  by_cases hroom : Room (a ++ b) (key, value)
  · obtain ⟨n', hins, -⟩ := hyes hroom
    rw [hins]
    exact iff_of_true rfl hroom
  · obtain ⟨n', hins, -⟩ := hno hroom
    rw [hins]
    exact iff_of_false Bool.false_ne_true hroom

theorem insertSeparator_accepts_iff (n : Node PageId) (sep : Bytes) (child : PageId) :
    (n.insertSeparator sep child).1 = true ↔ Room n.cells (sep, child) := by
  unfold insertSeparator
  by_cases hroom : Room n.cells (sep, child)
  · obtain ⟨n', hplace, -⟩ := place_room (lowerBound n.cells sep) hroom
    rw [hplace]
    exact iff_of_true rfl hroom
  · rw [place_no_room hroom]
    exact iff_of_false Bool.false_ne_true hroom

/-! ## Copying, splitting and merging -/

section Copy

variable {α : Type} [CellValue α]

/-- Cells beyond the last key are appended by `insert` where there is room. -/
def Appends (insert : Node α → Bytes → α → Bool × Node α) : Prop :=
  ∀ (n : Node α) (c : Bytes × α), Sorted (n.cells ++ [c]) → Room n.cells c →
    ∃ n', insert n c.1 c.2 = (true, n') ∧ n'.cells = n.cells ++ [c] ∧ n'.hdr = n.hdr

theorem appends_insertLeafCell : Appends insertLeafCell := by
  intro n c hs hroom
  obtain ⟨hn, -, hlt⟩ := Sorted.append_iff.mp hs
  have hlt : ∀ x ∈ n.cells, x.1 < c.1 := fun x hx => hlt x hx c List.mem_cons_self
  obtain ⟨a, b, hab, -, ha, hb, hyes, -⟩ := insertLeafCell_spec hn c.1 c.2
  rw [others_eq fun x hx => (hlt x hx).ne] at hab
  have hnil : b = [] := by
    refine List.eq_nil_iff_forall_not_mem.mpr fun x hx => ?_
    exact lt_asymm (hb x hx) (hlt x (by rw [hab]; exact List.mem_append_right a hx))
  subst hnil
  rw [List.append_nil] at hab hyes
  rw [hab] at hroom ⊢
  exact hyes hroom

theorem appends_insertSeparator : Appends insertSeparator := by
  intro n c hs hroom
  obtain ⟨-, -, hlt⟩ := Sorted.append_iff.mp hs
  have hlt : ∀ x ∈ n.cells, x.1 < c.1 := fun x hx => hlt x hx c List.mem_cons_self
  exact insertSeparator_spec (b := []) (List.append_nil _).symm hlt nofun
    (by rwa [List.append_nil])

theorem copyCells_spec {insert : Node α → Bytes → α → Bool × Node α} (happ : Appends insert)
    (room : String) {n : Node α} (cells : List (Bytes × α)) (hs : Sorted (n.cells ++ cells))
    (hcost : cellsCost (n.cells ++ cells) ≤ NODE_USABLE_SIZE) :
    ∃ n', copyCells insert room n cells = .ok n' ∧ n'.cells = n.cells ++ cells ∧
      n'.hdr = n.hdr := by
  induction cells generalizing n with
  | nil => exact ⟨n, rfl, (List.append_nil _).symm, rfl⟩
  | cons c cells ih =>
    rw [List.append_cons] at hs hcost
    have hroom : Room n.cells c := by
      simp only [cellsCost_append, cellsCost_cons, cellsCost_nil] at hcost
      rw [Room]
      omega
    obtain ⟨n₁, hins, hcells, hhdr⟩ := happ n c (Sorted.append_iff.mp hs).1 hroom
    obtain ⟨n', hcopy, hcells', hhdr'⟩ := ih (n := n₁) (by rwa [hcells]) (by rwa [hcells])
    refine ⟨n', ?_, by rw [hcells', hcells, ← List.append_cons], by rw [hhdr', hhdr]⟩
    rw [copyCells, hins]
    exact hcopy

end Copy

section Split

variable {α : Type} [CellValue α]

/-- Where a node with these cells and no lost bytes is cut. -/
def cutAt (cells : List (Bytes × α)) : Nat := splitIdx (cellsCost cells / 2) cells 0 0

theorem Compacted.splitAt_eq {n : Node α} (h : n.Compacted) : n.splitAt = cutAt n.cells := by
  have hcost := h.cost_add_freeSpace
  rw [splitAt, cutAt, Nat.sub_eq_of_eq_add hcost.symm]

theorem splitIdx_bounds {half i acc : Nat} {cells : List (Bytes × α)} (hi : 0 < i)
    (hne : cells ≠ []) (h : half < acc + cellsCost cells) :
    i ≤ splitIdx half cells i acc ∧ splitIdx half cells i acc < i + cells.length := by
  induction cells generalizing i acc with
  | nil => exact (hne rfl).elim
  | cons c cells ih =>
    rw [splitIdx, List.length_cons]
    split
    · omega
    · next hlt =>
      rw [cellsCost_cons, ← Nat.add_assoc] at h
      have hne : cells ≠ [] := by
        rintro rfl
        rw [cellsCost_nil] at h
        exact hlt ⟨h, hi⟩
      obtain ⟨hlo, hhi⟩ := ih (i := i + 1) (by omega) hne h
      omega

/-- **The cut is interior.** -/
theorem cutAt_bounds {cells : List (Bytes × α)} (h : 2 ≤ cells.length) :
    1 ≤ cutAt cells ∧ cutAt cells < cells.length := by
  cases cells with
  | nil => simp at h
  | cons c cells =>
    have hne : cells ≠ [] := by rintro rfl; simp at h
    have hpos := cellCost_pos c
    have hhalf : cellsCost (c :: cells) / 2 < 0 + cellCost c + cellsCost cells := by
      rw [cellsCost_cons]
      omega
    obtain ⟨hlo, hhi⟩ := splitIdx_bounds Nat.one_pos hne hhalf
    have hcut : cutAt (c :: cells) =
        splitIdx (cellsCost (c :: cells) / 2) cells 1 (0 + cellCost c) := by
      rw [cutAt, splitIdx, if_neg (by omega)]
    rw [hcut, List.length_cons]
    exact ⟨hlo, by omega⟩

/-- The two halves of a list of cells and the cell in the middle; nothing with fewer than two. -/
def splitCells (cells : List (Bytes × α)) :
    Option (List (Bytes × α) × (Bytes × α) × List (Bytes × α)) :=
  match cells.drop (cutAt cells) with
  | [] => none
  | c :: b => if 2 ≤ cells.length then some (cells.take (cutAt cells), c, b) else none

theorem splitCells_eq_some {cells a b : List (Bytes × α)} {c : Bytes × α}
    (h : splitCells cells = some (a, c, b)) :
    2 ≤ cells.length ∧ cells = a ++ c :: b ∧ a.length = cutAt cells ∧ a ≠ [] := by
  unfold splitCells at h
  split at h
  · cases h
  · next c' b' hdrop =>
    split at h
    · next hlen =>
      cases h
      obtain ⟨hlo, hhi⟩ := cutAt_bounds hlen
      refine ⟨hlen, ?_, ?_, ?_⟩
      · rw [← hdrop, List.take_append_drop]
      · rw [List.length_take]
        omega
      · rw [ne_eq, List.take_eq_nil_iff]
        rintro (h0 | rfl)
        · omega
        · simp at hlen
    · cases h

theorem exists_splitCells {cells : List (Bytes × α)} (h : 2 ≤ cells.length) :
    ∃ a c b, splitCells cells = some (a, c, b) := by
  have hcut := (cutAt_bounds h).2
  cases hdrop : cells.drop (cutAt cells) with
  | nil =>
    have hle := List.drop_eq_nil_iff.mp hdrop
    omega
  | cons c b => exact ⟨_, c, b, by rw [splitCells, hdrop]; exact if_pos h⟩

end Split

/-- The assertions of `split_into` hold for two cells or more and an empty right node. -/
theorem splitCheck_ok {α : Type} [CellValue α] {n right : Node α} (h : 2 ≤ n.cells.length)
    (hr : right.cells = []) : splitCheck n right = .ok () := by
  rw [splitCheck, numKeys, numKeys, hr, if_neg (not_lt.mpr h)]
  rfl

/-- Conversely a split that returns had two cells or more. -/
theorem length_of_splitCheck {α β : Type} [CellValue α] {n right : Node α}
    {f : Unit → Except Exn β} {r : β} (h : (splitCheck n right >>= f) = .ok r) :
    2 ≤ n.cells.length := by
  by_contra hlt
  rw [splitCheck, numKeys, if_pos (not_le.mp hlt)] at h
  cases h

theorem keyAt_middle {α : Type} [CellValue α] {n : Node α} {a b : List (Bytes × α)}
    {c : Bytes × α} (h : n.cells = a ++ c :: b) : n.keyAt a.length = .ok c.1 := by
  rw [keyAt, h]
  simp

theorem valueAt_middle {α : Type} [CellValue α] {n : Node α} {a b : List (Bytes × α)}
    {c : Bytes × α} (h : n.cells = a ++ c :: b) : n.valueAt a.length = .ok c.2 := by
  rw [valueAt, h]
  simp

/-- **`split_into` of a leaf**: the middle cell starts the right half. -/
theorem splitLeaf_spec {n right : Node Bytes} {a b : List (Bytes × Bytes)} {c : Bytes × Bytes}
    (hn : n.Compacted) (hs : Sorted n.cells) (hr : right.cells = [])
    (h : splitCells n.cells = some (a, c, b)) (id rightId : PageId) :
    ∃ left right', n.splitLeaf right id rightId = .ok (left, right', c.1) ∧
      left.cells = a ∧ left.hdr = { n.hdr with rightSibling := rightId } ∧
      right'.cells = c :: b ∧ right'.hdr.rightSibling = n.hdr.rightSibling ∧
      right'.hdr.leftSibling = id := by
  obtain ⟨hlen, hcells, hcut, -⟩ := splitCells_eq_some h
  have hat : n.splitAt = a.length := hn.splitAt_eq.trans hcut.symm
  have hcost := n.cost_le
  rw [hcells] at hs hcost
  have hright : right.cells ++ (c :: b) = c :: b := by rw [hr, List.nil_append]
  obtain ⟨right', hcopy, hcells', hhdr⟩ := copyCells_spec appends_insertLeafCell
    "ok && \"right node should have room during split\""
    (n := { right with hdr := { right.hdr with parentId := n.hdr.parentId } }) (c :: b)
    (by rw [hright]; exact (Sorted.append_iff.mp hs).2.1)
    (by rw [cellsCost_append] at hcost; rw [hright]; omega)
  have hdrop : n.cells.drop n.splitAt = c :: b := by rw [hat, hcells, List.drop_left]
  have htake : n.cells.take n.splitAt = a := by rw [hat, hcells, List.take_left]
  have hkey : n.keyAt n.splitAt = .ok c.1 := by rw [hat]; exact keyAt_middle hcells
  simp only [splitLeaf, splitCheck_ok hlen hr, hkey, hdrop, hcopy]
  exact ⟨_, _, rfl, htake, rfl, hcells'.trans hright, rfl, rfl⟩

theorem Compacted.splitMid_eq {n : Node PageId} (hn : n.Compacted) (h : 2 ≤ n.cells.length) :
    n.splitMid = cutAt n.cells := by
  obtain ⟨hlo, hhi⟩ := cutAt_bounds h
  simp only [splitMid, hn.splitAt_eq, numKeys, if_neg (Nat.ne_of_gt hlo)]
  split
  · omega
  · rfl

/-- **`split_into` of an internal node**: the middle key goes up, its child starts the right
half. -/
theorem splitInternal_spec {n right : Node PageId} {a b : List (Bytes × PageId)}
    {c : Bytes × PageId} (hn : n.Compacted) (hs : Sorted n.cells) (hr : right.cells = [])
    (h : splitCells n.cells = some (a, c, b)) :
    ∃ left right', n.splitInternal right = .ok (left, right', c.1) ∧
      left.cells = a ∧ left.hdr = n.hdr ∧ right'.cells = b ∧ right'.hdr.firstChild = c.2 := by
  obtain ⟨hlen, hcells, hcut, -⟩ := splitCells_eq_some h
  have hat : n.splitMid = a.length := (hn.splitMid_eq hlen).trans hcut.symm
  have hcost := n.cost_le
  rw [hcells] at hs hcost
  have hright : right.cells ++ b = b := by rw [hr, List.nil_append]
  obtain ⟨right', hcopy, hcells', hhdr⟩ := copyCells_spec appends_insertSeparator
    "ok && \"right node should have room during split\""
    (n := { right with hdr := { right.hdr with parentId := n.hdr.parentId, firstChild := c.2 } })
    b
    (by rw [hright]; exact (Sorted.cons_iff.mp (Sorted.append_iff.mp hs).2.1).2)
    (by rw [cellsCost_append, cellsCost_cons] at hcost; rw [hright]; omega)
  have hdrop : n.cells.drop (n.splitMid + 1) = b := by rw [hat, hcells]; simp
  have htake : n.cells.take n.splitMid = a := by rw [hat, hcells, List.take_left]
  have hkey : n.keyAt n.splitMid = .ok c.1 := by rw [hat]; exact keyAt_middle hcells
  have hval : n.valueAt n.splitMid = .ok c.2 := by rw [hat]; exact valueAt_middle hcells
  simp only [splitInternal, splitCheck_ok hlen hr, hkey, hval, hdrop]
  refine ⟨n.removeFrom n.splitMid, right', ?_, htake, rfl, hcells'.trans hright, by rw [hhdr]⟩
  exact congrArg (fun x => x >>= fun r => pure (n.removeFrom n.splitMid, r, c.1)) hcopy

/-- `merge_from` of a leaf. -/
theorem mergeLeaf_spec {n r : Node Bytes} (hs : Sorted (n.cells ++ r.cells))
    (hcost : cellsCost (n.cells ++ r.cells) ≤ NODE_USABLE_SIZE) :
    ∃ n', n.mergeLeaf r = .ok n' ∧ n'.cells = n.cells ++ r.cells ∧
      n'.hdr.rightSibling = r.hdr.rightSibling := by
  obtain ⟨n', hcopy, hcells, -⟩ := copyCells_spec appends_insertLeafCell
    "ok && \"merged node should have room\"" r.cells hs hcost
  simp only [mergeLeaf, hcopy]
  exact ⟨_, rfl, hcells, rfl⟩

/-- `merge_from` of an internal node: the separator comes down between the two. -/
theorem mergeInternal_spec {n r : Node PageId} {sep : Bytes}
    (hs : Sorted (n.cells ++ (sep, r.hdr.firstChild) :: r.cells))
    (hcost : cellsCost (n.cells ++ (sep, r.hdr.firstChild) :: r.cells) ≤
      NODE_USABLE_SIZE) :
    ∃ n', n.mergeInternal r sep = .ok n' ∧
      n'.cells = n.cells ++ (sep, r.hdr.firstChild) :: r.cells ∧ n'.hdr = n.hdr := by
  rw [List.append_cons] at hs hcost ⊢
  have hroom : Room n.cells (sep, r.hdr.firstChild) := by
    simp only [cellsCost_append, cellsCost_cons, cellsCost_nil] at hcost
    rw [Room]
    omega
  obtain ⟨n₁, hins, hcells₁, hhdr₁⟩ := appends_insertSeparator n (sep, r.hdr.firstChild)
    (Sorted.append_iff.mp hs).1 hroom
  obtain ⟨n', hcopy, hcells, hhdr⟩ := copyCells_spec appends_insertSeparator
    "ok && \"merged internal node should have room\"" (n := n₁) r.cells
    (by rwa [hcells₁]) (by rwa [hcells₁])
  refine ⟨n', ?_, by rw [hcells, hcells₁], by rw [hhdr, hhdr₁]⟩
  rw [mergeInternal, hins]
  exact hcopy

/-- Two underflowing nodes fit into one. -/
theorem cost_of_underflow {α : Type} [CellValue α] {n n' : Node α} (h : n.underflow = true)
    (h' : n'.underflow = true) : cellsCost (n.cells ++ n'.cells) ≤ NODE_USABLE_SIZE := by
  have hlt := cost_lt_of_underflow h
  have hlt' := cost_lt_of_underflow h'
  rw [cellsCost_append]
  omega

/-! ## Searching -/

theorem childFor_eq {n : Node PageId} {a b : List (Bytes × PageId)} {key : Bytes}
    (hn : n.cells = a ++ b) (hle : ∀ c ∈ a, c.1 ≤ key) (hgt : ∀ c ∈ b, key < c.1)
    (hs : Sorted n.cells) :
    n.childFor key = ((a.getLast?).map Prod.snd).getD n.hdr.firstChild := by
  have hub : lowerBound n.cells key +
      ((n.cells.drop (lowerBound n.cells key)).takeWhile fun c => c.1 = key).length =
        a.length := by
    have hstop : b.takeWhile (fun c => decide (c.1 = key)) = [] := by
      cases b with
      | nil => rfl
      | cons c b =>
        rw [List.takeWhile_cons_of_neg (by simpa using (hgt c List.mem_cons_self).ne')]
    rcases List.eq_nil_or_concat a with rfl | ⟨a, x, rfl⟩
    · have hcut : Cut [] b key := ⟨nofun, fun c hc => (hgt c hc).le⟩
      rw [hn, hcut.lowerBound]
      simp [hstop]
    · -- the last separator that is passed may be the key itself
      rw [List.concat_eq_append, List.append_assoc, List.singleton_append] at hn
      have hlt : ∀ c ∈ a, c.1 < x.1 := (hn ▸ hs).at_slot.1
      have hx : x.1 ≤ key := hle x (by simp)
      rcases hx.eq_or_lt with e | hx
      · have hcut : Cut a (x :: b) key := by
          refine ⟨fun c hc => e ▸ hlt c hc, fun c hc => ?_⟩
          rcases List.mem_cons.mp hc with rfl | hc
          · exact e.ge
          · exact (hgt c hc).le
        rw [hn, hcut.lowerBound, List.drop_left, List.takeWhile_cons_of_pos (by simpa using e),
          hstop]
        simp
      · have hcut : Cut (a ++ [x]) b key := by
          refine ⟨fun c hc => ?_, fun c hc => (hgt c hc).le⟩
          rcases List.mem_append.mp hc with hc | hc
          · exact (hlt c hc).trans hx
          · exact (List.mem_singleton.mp hc) ▸ hx
        rw [hn, List.append_cons, hcut.lowerBound, List.drop_left, hstop]
        simp
  unfold childFor
  dsimp only
  rw [hub]
  rcases List.eq_nil_or_concat a with rfl | ⟨a, x, rfl⟩
  · simp
  · rw [hn]
    simp

/-- **`child_for`** is the last child that starts at or below the key. -/
theorem childFor_spec {n : Node PageId} (hs : Sorted n.cells) {lo key : Bytes} (hlo : lo ≤ key) :
    ∃ a x b, (lo, n.hdr.firstChild) :: n.cells = a ++ x :: b ∧ x.2 = n.childFor key ∧
      x.1 ≤ key ∧ ∀ y ∈ b, key < y.1 := by
  obtain ⟨a, b, hab, hle, hgt⟩ : ∃ a b, n.cells = a ++ b ∧ (∀ c ∈ a, c.1 ≤ key) ∧
      ∀ c ∈ b, key < c.1 := by
    obtain ⟨a, b, hab, hcut⟩ := hs.cut key
    rw [hab] at hs
    rcases hs.cut_cases hcut with ⟨v, b, rfl⟩ | hgt
    · refine ⟨a ++ [(key, v)], b, by rw [hab, List.append_cons], fun c hc => ?_, hs.at_slot.2⟩
      rcases List.mem_append.mp hc with hc | hc
      · exact (hcut.lt c hc).le
      · exact (List.mem_singleton.mp hc) ▸ le_rfl
    · exact ⟨a, b, hab, fun c hc => (hcut.lt c hc).le, hgt⟩
  rw [childFor_eq hab hle hgt hs]
  rcases List.eq_nil_or_concat a with rfl | ⟨a, x, rfl⟩
  · exact ⟨[], (lo, n.hdr.firstChild), b, by rw [hab]; rfl, rfl, hlo, hgt⟩
  · refine ⟨(lo, n.hdr.firstChild) :: a, x, b, by rw [hab]; simp, by simp, hle x (by simp), hgt⟩

/-! ## Borrowing -/

/-- `steal_from_left` of a leaf: the last cell of the left sibling becomes the first one. -/
theorem stealFromLeftLeaf_spec {n left : Node Bytes} {a : List (Bytes × Bytes)} {k v : Bytes}
    (hleft : left.cells = a ++ [(k, v)]) (hs : Sorted n.cells) (hlt : ∀ c ∈ n.cells, k < c.1)
    (hroom : Room n.cells (k, v)) :
    ∃ n' left', n.stealFromLeftLeaf left = .ok (n', left', k) ∧ n'.cells = (k, v) :: n.cells ∧
      n'.hdr = n.hdr ∧ left'.cells = a ∧ left'.hdr = left.hdr := by
  obtain ⟨n', hins, hcells, hhdr⟩ : ∃ n', n.insertLeafCell k v = (true, n') ∧
      n'.cells = (k, v) :: n.cells ∧ n'.hdr = n.hdr := by
    obtain ⟨a', b', hab, -, ha', -, hyes, -⟩ := insertLeafCell_spec hs k v
    rw [others_eq fun c hc => (hlt c hc).ne'] at hab
    have hnil : a' = [] := by
      refine List.eq_nil_iff_forall_not_mem.mpr fun c hc => ?_
      exact lt_asymm (ha' c hc) (hlt c (by rw [hab]; exact List.mem_append_left b' hc))
    subst hnil
    rw [List.nil_append] at hab hyes
    rw [hab] at hroom ⊢
    exact hyes hroom
  refine ⟨n', left.removeCell (left.numKeys - 1), ?_, hcells, hhdr, ?_, rfl⟩
  · simp only [stealFromLeftLeaf, hleft, List.getLast?_append, List.getLast?_singleton,
      Option.some_or, hins]
  · have hlen : left.numKeys - 1 = a.length := by simp [numKeys, hleft]
    rw [removeCell_cells, hlen, hleft, eraseIdx_append_cons, List.append_nil]

/-- `steal_from_right` of a leaf: the first cell of the right sibling becomes the last one. -/
theorem stealFromRightLeaf_spec {n right : Node Bytes} {b : List (Bytes × Bytes)}
    {k v : Bytes} {c : Bytes × Bytes} (hright : right.cells = (k, v) :: c :: b)
    (hs : Sorted (n.cells ++ [(k, v)])) (hroom : Room n.cells (k, v)) :
    ∃ n' right', n.stealFromRightLeaf right = .ok (n', right', c.1) ∧
      n'.cells = n.cells ++ [(k, v)] ∧ n'.hdr = n.hdr ∧ right'.cells = c :: b ∧
      right'.hdr = right.hdr := by
  obtain ⟨n', hins, hcells, hhdr⟩ := appends_insertLeafCell n (k, v) hs hroom
  refine ⟨n', right.removeCell 0, ?_, hcells, hhdr, by rw [removeCell_cells, hright]; rfl, rfl⟩
  have hkey : right.keyAt 0 = .ok k := keyAt_middle (a := []) hright
  have hval : right.valueAt 0 = .ok v := valueAt_middle (a := []) hright
  have hsep : (right.removeCell 0).keyAt 0 = .ok c.1 :=
    keyAt_middle (a := []) (by rw [removeCell_cells, hright]; rfl)
  simp only [stealFromRightLeaf, hkey, hval, hsep, bind, Except.bind, hins]
  rfl

end Node

/-- A separator that moved had room; one of another length goes to the place of its key. -/
theorem BTree.replaceSeparator_eq {n n' : Node PageId} {a b : List (Bytes × PageId)}
    {old newSep : Bytes} {child : PageId} (hn : n.cells = a ++ (old, child) :: b)
    (h : replaceSeparator n a.length newSep = .ok n') :
    Room (a ++ b) (newSep, child) ∧ n'.hdr = n.hdr ∧
      n'.cells = if old.length = newSep.length then a ++ (newSep, child) :: b
        else (a ++ b).insertIdx (lowerBound (a ++ b) newSep) (newSep, child) := by
  simp only [replaceSeparator, Node.keyAt_middle hn, Node.valueAt_middle hn, bind, Except.bind] at h
  split at h
  · next hlen =>
    have hcost := n.cost_le
    have hsize : cellCost (old, child) = cellCost (newSep, child) := by
      simp only [cellCost_mk, cellSize, hlen]
    rw [hn, cellsCost_append, cellsCost_cons, hsize] at hcost
    have hroom : Room (a ++ b) (newSep, child) := by
      rw [Room, cellsCost_append]
      omega
    unfold Node.updateSeparatorKey at h
    split at h
    · cases h
    · next k c hc =>
      rw [hn, List.getElem?_append_right le_rfl, Nat.sub_self] at hc
      cases hc
      rw [dif_pos hlen] at h
      cases h
      refine ⟨hroom, rfl, ?_⟩
      rw [if_pos hlen]
      simp [Node.setCell, hn]
  · next hlen =>
    split at h
    · next n₁ hins =>
      cases h
      obtain ⟨hroom, hcells, hhdr⟩ := Node.place_eq_true hins
      rw [Node.removeCell_cells, hn, eraseIdx_append_cons] at hroom hcells
      exact ⟨hroom, hhdr, by rw [if_neg hlen, hcells]⟩
    · cases h

/-- With room, a separator can be replaced whatever its neighbours are. -/
theorem BTree.replaceSeparator_room {n : Node PageId} {a b : List (Bytes × PageId)}
    {old newSep : Bytes} {child : PageId} (hn : n.cells = a ++ (old, child) :: b)
    (hroom : Room (a ++ b) (newSep, child)) : ∃ n', replaceSeparator n a.length newSep = .ok n' := by
  simp only [replaceSeparator, Node.keyAt_middle hn, Node.valueAt_middle hn, bind, Except.bind]
  split
  · next hlen =>
    unfold Node.updateSeparatorKey
    split
    · next hc =>
      rw [hn] at hc
      simp at hc
    · next k c hc =>
      rw [hn, List.getElem?_append_right le_rfl, Nat.sub_self] at hc
      cases hc
      rw [dif_pos hlen]
      exact ⟨_, rfl⟩
  · have hrem : (n.removeCell a.length).cells = a ++ b := by
      rw [Node.removeCell_cells, hn, eraseIdx_append_cons]
    obtain ⟨n', hplace, -⟩ := Node.place_room
      (lowerBound (n.removeCell a.length).cells newSep) (hrem ▸ hroom)
    rw [Node.insertSeparator, hplace]
    exact ⟨n', rfl⟩

/-- A separator moves within its gap. -/
theorem BTree.replaceSeparator_spec {n : Node PageId} {a b : List (Bytes × PageId)}
    {old newSep : Bytes} {child : PageId} (hn : n.cells = a ++ (old, child) :: b)
    (hlt : ∀ c ∈ a, c.1 < newSep) (hgt : ∀ c ∈ b, newSep < c.1)
    (hroom : Room (a ++ b) (newSep, child)) :
    ∃ n', replaceSeparator n a.length newSep = .ok n' ∧ n'.cells = a ++ (newSep, child) :: b ∧
      n'.hdr = n.hdr := by
  obtain ⟨n', h⟩ := replaceSeparator_room hn hroom
  obtain ⟨-, hhdr, hcells⟩ := replaceSeparator_eq hn h
  have hcut : Cut a b newSep := ⟨hlt, fun c hc => (hgt c hc).le⟩
  refine ⟨n', h, ?_, hhdr⟩
  rw [hcells, hcut.lowerBound, insertIdx_append, ite_self]

end KeyVDB
