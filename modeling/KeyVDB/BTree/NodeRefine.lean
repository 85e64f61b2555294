import KeyVDB.BTree.NodeBytes
import KeyVDB.BTree.Cells

/-!
# Slotted pages refine lists of cells

A page is `Laid` out for a node if its header has the node's counters and page ids, its slots point to
the node's cells in order, and the cells lie in the heap without touching one another. Each
operation of `node.cpp` on the bytes then does what the operation of `Node` does on the list: it
fails the same assertions, returns the same result and leaves a page that is laid out for the node
which the list operation leaves.
-/

namespace KeyVDB

theorem SLOT_ARRAY_START_eq : SLOT_ARRAY_START = 32 := rfl

theorem NODE_DATA_SIZE_eq : NODE_DATA_SIZE = 4072 := rfl

theorem DATA_SIZE_eq : DATA_SIZE = 4072 := rfl

theorem SLOT_SIZE_eq : SLOT_SIZE = 2 := rfl

/-! ## Cells in the heap -/

section Stored

variable {α : Type} [CellValue α] [CellCodec α]

/-- A cell and its offset. -/
abbrev Placed (α : Type) := Nat × (Bytes × α)

/-- The bytes that a cell takes, from the first to the one after its last. -/
def Placed.extent (x : Placed α) : Nat × Nat := (x.1, x.1 + cellSize x.2.1 x.2.2)

/-- Two ranges without a common byte. -/
def NoOverlap (x y : Nat × Nat) : Prop := x.2 ≤ y.1 ∨ y.2 ≤ x.1

theorem NoOverlap.symm {x y : Nat × Nat} (h : NoOverlap x y) : NoOverlap y x := Or.symm h

/-- The cell lies in the heap from `lo` on, and its bytes are there. -/
structure Stored (d : Buffer DATA_SIZE) (lo : Nat) (x : Placed α) : Prop where
  lo_le : lo ≤ x.1
  le_end : x.1 + cellSize x.2.1 x.2.2 ≤ NODE_DATA_SIZE
  bytes : d.readAt x.1 (cellSize x.2.1 x.2.2) = cellBytes x.2.1 x.2.2
  storable : CellCodec.Storable x.2.2

theorem length_cellBytes (key : Bytes) (a : α) : (cellBytes key a).length = cellSize key a := by
  rw [cellBytes, CellCodec.cellSize_eq, List.length_append, length_leBytes, List.length_append]

namespace Stored

variable {d d' : Buffer DATA_SIZE} {lo lo' : Nat} {x : Placed α}

theorem congr (h : Stored d lo x) (hlo : lo' ≤ x.1)
    (hd : ∀ i, x.1 ≤ i → i < x.1 + cellSize x.2.1 x.2.2 → d'.get i = d.get i) :
    Stored d' lo' x where
  lo_le := hlo
  le_end := h.le_end
  bytes := by rw [Buffer.readAt_congr hd, h.bytes]
  storable := h.storable

/-- The three parts of the cell's bytes. -/
theorem parts (h : Stored d lo x) : d.readAt x.1 2 = leBytes 2 x.2.1.length ∧
    d.readAt (x.1 + 2) x.2.1.length = x.2.1 ∧
      d.readAt (x.1 + 2 + x.2.1.length) (CellCodec.bytes x.2.2).length = CellCodec.bytes x.2.2 := by
  have hbytes := h.bytes
  rw [← length_cellBytes, cellBytes] at hbytes
  obtain ⟨hlen, hrest⟩ := Buffer.readAt_append hbytes
  obtain ⟨hkey, hvalue⟩ := Buffer.readAt_append hrest
  rw [length_leBytes] at hlen hkey hvalue
  exact ⟨hlen, hkey, hvalue⟩

theorem key_length (h : Stored d lo x) : x.2.1.length < 256 ^ 2 := by
  have hle := h.le_end
  rw [CellCodec.cellSize_eq, NODE_DATA_SIZE_eq] at hle
  omega

theorem word_eq (h : Stored d lo x) : d.word 2 x.1 = x.2.1.length := by
  rw [Buffer.word, h.parts.1, leNat_leBytes_of_lt h.key_length]

theorem key_eq (h : Stored d lo x) : d.readAt (x.1 + 2) (d.word 2 x.1) = x.2.1 := by
  rw [h.word_eq, h.parts.2.1]

theorem payload_eq (h : Stored d lo x) :
    CellCodec.read d (x.1 + 2 + d.word 2 x.1) = x.2.2 := by
  rw [h.word_eq]
  exact CellCodec.read_eq h.storable h.parts.2.2

end Stored

theorem RawPage.hdr_congr {p p' : RawPage}
    (h : ∀ i, 8 ≤ i → i < 24 → p'.data.get i = p.data.get i) : p'.hdr = p.hdr := by
  have hint : ∀ k, 8 ≤ k → k + 4 ≤ 24 → p'.data.int 4 k = p.data.int 4 k := fun k hk hk' =>
    Buffer.int_congr fun i hlo hhi => h i (by omega) (by omega)
  simp only [RawPage.hdr, hint 8 (by omega) (by omega), hint 12 (by omega) (by omega),
    hint 16 (by omega) (by omega), hint 20 (by omega) (by omega)]

/-- The page holds the node: the cells of `placed`, in slot order. -/
structure Laid (p : RawPage) (n : Node α) (placed : List (Placed α)) : Prop where
  leaf : p.isLeaf = CellCodec.leaf α
  numKeys : p.numKeys = n.numKeys
  freeEnd : p.freeEnd = n.freeEnd
  cellEnd : p.cellEnd = n.cellEnd
  hdr : p.hdr = n.hdr
  cells : placed.map Prod.snd = n.cells
  slots : ∀ i x, placed[i]? = some x → p.slotAt i = x.1
  stored : ∀ x ∈ placed, Stored p.data n.cellEnd x
  apart : (placed.map Placed.extent).Pairwise NoOverlap

/-! ## Reading -/

omit [CellCodec α] in
/-- The header and the slots stay below the cells, and those inside the page. -/
theorem Node.bounds (n : Node α) :
    32 + 2 * n.numKeys ≤ n.cellEnd ∧ n.cellEnd + heapSize n.cells ≤ 4072 := by
  have hslots := n.slots_le
  have hheap := n.heap_le
  simp only [SLOT_ARRAY_START_eq, SLOT_SIZE_eq, NODE_DATA_SIZE_eq, Node.numKeys] at *
  omega

namespace Laid

variable {p : RawPage} {n : Node α} {placed : List (Placed α)}

theorem length_eq (h : Laid p n placed) : placed.length = n.numKeys := by
  rw [Node.numKeys, ← h.cells, List.length_map]

/-- The cell at a slot. -/
theorem exists_placed (h : Laid p n placed) {i : Nat} {c : Bytes × α}
    (hc : n.cells[i]? = some c) : ∃ off, placed[i]? = some (off, c) ∧ p.slotAt i = off ∧
      Stored p.data n.cellEnd (off, c) := by
  rw [← h.cells, List.getElem?_map] at hc
  obtain ⟨x, hx, rfl⟩ := Option.map_eq_some_iff.mp hc
  exact ⟨x.1, hx, h.slots i x hx, h.stored x (List.mem_of_getElem? hx)⟩

theorem keyAt_eq (h : Laid p n placed) (i : Nat) : p.keyAt i = n.keyAt i := by
  rw [RawPage.keyAt, Node.keyAt, h.numKeys, Node.numKeys]
  cases hc : n.cells[i]? with
  | none => rw [if_neg (Nat.not_lt.mpr (List.getElem?_eq_none_iff.mp hc))]
  | some c =>
    obtain ⟨off, -, hslot, hstored⟩ := h.exists_placed hc
    rw [if_pos (List.getElem?_eq_some_iff.mp hc).1, hslot, hstored.key_eq]

theorem payloadAt_eq (h : Laid p n placed) (i : Nat) : p.payloadAt α i = n.valueAt i := by
  rw [RawPage.payloadAt, if_pos h.leaf, Node.valueAt, h.numKeys, Node.numKeys]
  cases hc : n.cells[i]? with
  | none => rw [if_neg (Nat.not_lt.mpr (List.getElem?_eq_none_iff.mp hc))]
  | some c =>
    obtain ⟨off, -, hslot, hstored⟩ := h.exists_placed hc
    rw [if_pos (List.getElem?_eq_some_iff.mp hc).1, hslot, hstored.payload_eq]

theorem isFull_eq (h : Laid p n placed) (size : Nat) : p.isFull size = .ok (n.isFull size) := by
  have hle : n.freeEnd ≤ n.cellEnd := n.slots_le
  rw [RawPage.isFull, RawPage.freeSpace, h.freeEnd, h.cellEnd, if_pos hle]
  rfl

/-- The search over the bytes takes the turns of the search over the list. -/
theorem lowerBoundIn_eq (h : Laid p n placed) (key : Bytes) {fuel lo hi : Nat}
    (hhi : hi ≤ n.numKeys) :
    p.lowerBoundIn key fuel lo hi = .ok (lowerBoundIn n.cells key fuel lo hi) := by
  induction fuel generalizing lo hi with
  | zero => rfl
  | succ fuel ih =>
    rw [RawPage.lowerBoundIn, lowerBoundIn]
    by_cases hlt : lo < hi
    · have hbounds := n.bounds
      have hmid : lo + (hi - lo) / 2 < n.numKeys := by omega
      have hwrap : (lo + (hi - lo) / 2) % 2 ^ 16 = lo + (hi - lo) / 2 := Nat.mod_eq_of_lt (by omega)
      have hwrap' : (lo + (hi - lo) / 2 + 1) % 2 ^ 16 = lo + (hi - lo) / 2 + 1 :=
        Nat.mod_eq_of_lt (by omega)
      obtain ⟨c, hc⟩ : ∃ c, n.cells[lo + (hi - lo) / 2]? = some c :=
        ⟨_, List.getElem?_eq_getElem hmid⟩
      have hkey : p.keyAt (lo + (hi - lo) / 2) = .ok c.1 := by
        rw [h.keyAt_eq, Node.keyAt, hc]
      rw [if_pos hlt, if_pos hlt]
      simp only [hwrap, hwrap', hkey, hc, Option.any_some]
      by_cases hk : c.1 < key
      · rw [if_pos (by simpa using hk)]
        exact (if_pos hk).trans (ih hhi)
      · rw [if_neg (by simpa using hk)]
        exact (if_neg hk).trans (ih (by omega))
    · rw [if_neg hlt, if_neg hlt]

theorem lowerBound_eq (h : Laid p n placed) (key : Bytes) :
    p.lowerBound key = .ok (lowerBound n.cells key) := by
  rw [RawPage.lowerBound, h.numKeys]
  exact h.lowerBoundIn_eq key (Nat.le_refl _)

end Laid

/-! ## Putting a cell in -/

section PutCell

variable {d : Buffer DATA_SIZE} {slot payload : Nat} {cell : Bytes}

/-- There is room for the cell between the slots and the heap. -/
structure CanPut (d : Buffer DATA_SIZE) (slot payload : Nat) (cell : Bytes) : Prop where
  length : cell.length = payload
  slot_le : slot ≤ d.word 2 0
  room : 32 + 2 * (d.word 2 0 + 1) + payload ≤ d.word 2 4
  cellEnd_le : d.word 2 4 ≤ 4072
  freeEnd_eq : d.word 2 2 = 32 + 2 * d.word 2 0

namespace CanPut

/-- The page after the cell was copied and before its slot is put in. -/
def copied (d : Buffer DATA_SIZE) (payload : Nat) (cell : Bytes) : Buffer DATA_SIZE :=
  (d.setWord 2 4 (d.word 2 4 - payload)).writeAt (d.word 2 4 - payload) cell

theorem get_copied (h : CanPut d slot payload cell) {i : Nat} (hi : i < 4 ∨ 6 ≤ i)
    (hi' : i < d.word 2 4 - payload ∨ d.word 2 4 ≤ i) :
    (copied d payload cell).get i = d.get i := by
  have hlen := h.length
  have hroom := h.room
  rw [copied, Buffer.get_writeAt_of_outside (by omega), Buffer.get_setWord_of_outside (by omega)]

theorem putCell_eq (h : CanPut d slot payload cell) :
    RawPage.putCell d slot payload cell =
      ((((copied d payload cell).shiftUp 2 32 slot (d.word 2 0)).setWord 2
        (32 + 2 * slot) (d.word 2 4 - payload)).setWord 2 2 (d.word 2 2 + 2)).setWord 2 0
          (d.word 2 0 + 1) := by
  have hroom := h.room
  have hend := h.cellEnd_le
  have hoff : (d.setWord 2 4 (d.word 2 4 - payload)).word 2 4 = d.word 2 4 - payload :=
    Buffer.word_setWord (by decide) (by omega)
  have hfree : ∀ (b : Buffer DATA_SIZE) (k x : Nat), 2 + 2 ≤ k →
      (b.setWord 2 k x).word 2 2 = b.word 2 2 := fun b k x hk =>
    Buffer.word_setWord_of_disjoint (Or.inl hk)
  have hnum : ∀ (b : Buffer DATA_SIZE) (k x : Nat), 2 ≤ k →
      (b.setWord 2 k x).word 2 0 = b.word 2 0 := fun b k x hk =>
    Buffer.word_setWord_of_disjoint (Or.inl hk)
  have hshift : ∀ k < 5, ((copied d payload cell).shiftUp 2 32 slot
      (d.word 2 0)).word 2 k = (copied d payload cell).word 2 k := by
    intro k hk
    exact Buffer.word_congr fun i hlo hhi => Buffer.get_shiftUp_of_outside (Or.inl (by omega))
  have hcopied : ∀ k < 3, (copied d payload cell).word 2 k = d.word 2 k := by
    intro k hk
    exact Buffer.word_congr fun i hlo hhi => h.get_copied (by omega) (by omega)
  have hslot : RawPage.slotOffset slot = 32 + 2 * slot := rfl
  have hcount : (copied d payload cell).word 2 0 = d.word 2 0 := hcopied 0 (by omega)
  have hfold : (d.setWord 2 4 (d.word 2 4 - payload)).writeAt (d.word 2 4 - payload) cell =
      copied d payload cell := rfl
  simp only [RawPage.putCell, RawPage.shiftSlotsRight, hoff, hfold, hslot, SLOT_ARRAY_START_eq]
  rw [hcount, hnum _ 2 _ (by omega), hnum _ (32 + 2 * slot) _ (by omega), hshift 0 (by omega),
    hcount, hfree _ (32 + 2 * slot) _ (by omega), hshift 2 (by omega), hcopied 2 (by omega)]
  rfl

/-- Bytes outside the three counters, the slots from the new one on and the new cell. -/
theorem get_putCell (h : CanPut d slot payload cell) {i : Nat} (hi : 6 ≤ i)
    (hslots : i < 32 + 2 * slot ∨ 32 + 2 * (d.word 2 0 + 1) ≤ i)
    (hcell : i < d.word 2 4 - payload ∨ d.word 2 4 ≤ i) :
    (RawPage.putCell d slot payload cell).get i = d.get i := by
  have hslot := h.slot_le
  rw [h.putCell_eq, Buffer.get_setWord_of_outside (by omega),
    Buffer.get_setWord_of_outside (by omega), Buffer.get_setWord_of_outside (by omega),
    Buffer.get_shiftUp_of_outside (by omega),
    h.get_copied (by omega) hcell]

theorem numKeys_putCell (h : CanPut d slot payload cell) :
    (RawPage.putCell d slot payload cell).word 2 0 = d.word 2 0 + 1 := by
  have hroom := h.room
  have hend := h.cellEnd_le
  rw [h.putCell_eq]
  exact Buffer.word_setWord (by decide) (by omega)

theorem freeEnd_putCell (h : CanPut d slot payload cell) :
    (RawPage.putCell d slot payload cell).word 2 2 = 32 + 2 * (d.word 2 0 + 1) := by
  have hroom := h.room
  have hend := h.cellEnd_le
  have hfree := h.freeEnd_eq
  rw [h.putCell_eq, Buffer.word_setWord_of_disjoint (Or.inr (by omega)),
    Buffer.word_setWord (by decide) (by omega)]
  omega

/-- The bytes of the heap and of `cell_end`, as the copy left them. -/
theorem get_putCell_of_copied (h : CanPut d slot payload cell) {i : Nat}
    (hi : 4 ≤ i ∧ i < 6 ∨ d.word 2 4 - payload ≤ i) :
    (RawPage.putCell d slot payload cell).get i = (copied d payload cell).get i := by
  have hroom := h.room
  have hslot := h.slot_le
  rw [h.putCell_eq, Buffer.get_setWord_of_outside (by omega),
    Buffer.get_setWord_of_outside (by omega), Buffer.get_setWord_of_outside (by omega),
    Buffer.get_shiftUp_of_outside (by omega)]

theorem cellEnd_putCell (h : CanPut d slot payload cell) :
    (RawPage.putCell d slot payload cell).word 2 4 = d.word 2 4 - payload := by
  have hroom := h.room
  have hend := h.cellEnd_le
  rw [Buffer.word_congr fun i hlo hhi => h.get_putCell_of_copied (by omega), copied, Buffer.word,
    Buffer.readAt_writeAt_of_disjoint (by omega), ← Buffer.word]
  exact Buffer.word_setWord (by decide) (by omega)

theorem readAt_putCell (h : CanPut d slot payload cell) :
    (RawPage.putCell d slot payload cell).readAt (d.word 2 4 - payload) payload = cell := by
  have hroom := h.room
  have hend := h.cellEnd_le
  rw [Buffer.readAt_congr fun i hlo hhi => h.get_putCell_of_copied (by omega), copied]
  exact Buffer.readAt_writeAt_of_length h.length (by have := DATA_SIZE_eq; omega)

/-- The slots: those before the new one, the new one and those that moved up. -/
theorem slot_putCell (h : CanPut d slot payload cell) {i : Nat} (hi : i ≤ d.word 2 0) :
    (RawPage.putCell d slot payload cell).word 2 (32 + 2 * i) =
      if i < slot then d.word 2 (32 + 2 * i)
      else if i = slot then d.word 2 4 - payload
      else d.word 2 (32 + 2 * (i - 1)) := by
  have hroom := h.room
  have hend := h.cellEnd_le
  have hslot := h.slot_le
  split
  · exact Buffer.word_congr fun j hlo hhi => h.get_putCell (by omega) (by omega) (by omega)
  rw [h.putCell_eq, Buffer.word_setWord_of_disjoint (by omega),
    Buffer.word_setWord_of_disjoint (by omega)]
  split
  · next heq =>
    subst heq
    exact Buffer.word_setWord (by have := DATA_SIZE_eq; omega) (by omega)
  · rw [Buffer.word_setWord_of_disjoint (by omega), Buffer.word]
    have hdata := DATA_SIZE_eq
    rw [Buffer.readAt_shiftUp (by omega) (by omega) hi, ← Buffer.word]
    exact Buffer.word_congr fun j hlo hhi => h.get_copied (by omega) (by omega)

end CanPut

end PutCell

namespace Laid

variable {p : RawPage} {n : Node α} {placed : List (Placed α)} {slot : Nat} {key : Bytes} {a : α}

theorem canPut (h : Laid p n placed) (hfull : n.isFull (cellSize key a) = false)
    (hslot : slot ≤ n.numKeys) : CanPut p.data slot (cellSize key a) (cellBytes key a) := by
  have hbounds := n.bounds
  have hnum : p.data.word 2 0 = n.numKeys := h.numKeys
  have hend : p.data.word 2 4 = n.cellEnd := h.cellEnd
  have hfree : p.data.word 2 2 = n.freeEnd := h.freeEnd
  have hroom := Node.isFull_eq_false.mp hfull
  simp only [Node.freeSpace, Node.freeEnd, totalCellCost, SLOT_ARRAY_START_eq,
    SLOT_SIZE_eq] at hroom hfree
  exact ⟨length_cellBytes key a, by omega, by omega, by omega, by omega⟩

/-- `write_leaf_cell` and `write_internal_cell`. -/
theorem writeCell_eq (h : Laid p n placed) (hfull : n.isFull (cellSize key a) = false)
    (hslot : slot ≤ n.numKeys) (ha : CellCodec.Storable a) :
    ∃ p' placed', p.writeCell slot key a = .ok p' ∧
      Laid p' (n.writeCell slot key a hfull) placed' := by
  have hfit := h.canPut hfull hslot
  have hbounds := n.bounds
  have hnum : p.data.word 2 0 = n.numKeys := h.numKeys
  have hend : p.data.word 2 4 = n.cellEnd := h.cellEnd
  have hroom := hfit.room
  have hlen := h.length_eq
  rw [hnum, hend] at hroom
  refine ⟨{ p with data := RawPage.putCell p.data slot (cellSize key a) (cellBytes key a) },
    placed.insertIdx slot (n.cellEnd - cellSize key a, (key, a)), ?_, ?_⟩
  · rw [RawPage.writeCell, h.isFull_eq, hfull]
    rfl
  · constructor
    case leaf => exact h.leaf
    case numKeys =>
      rw [Node.numKeys, Node.writeCell, List.length_insertIdx_of_le_length hslot, ← Node.numKeys,
        ← hnum]
      exact hfit.numKeys_putCell
    case freeEnd =>
      rw [Node.freeEnd, Node.numKeys, Node.writeCell, List.length_insertIdx_of_le_length hslot,
        ← Node.numKeys, ← hnum]
      exact hfit.freeEnd_putCell
    case cellEnd => exact hfit.cellEnd_putCell.trans (congrArg (· - cellSize key a) hend)
    case hdr =>
      exact (RawPage.hdr_congr fun i hlo hhi =>
        hfit.get_putCell (by omega) (by omega) (by omega)).trans h.hdr
    case cells =>
      rw [Node.writeCell, List.map_insertIdx, h.cells]
    case slots =>
      intro i x hx
      have hi : i ≤ n.numKeys := by
        have hlt := (List.getElem?_eq_some_iff.mp hx).1
        rw [List.length_insertIdx_of_le_length (by omega)] at hlt
        omega
      refine (hfit.slot_putCell (hnum ▸ hi)).trans ?_
      rw [List.getElem?_insertIdx] at hx
      split at hx
      · next hlt => exact (if_pos hlt).trans (h.slots i x hx)
      rw [if_neg ‹_›]
      split at hx
      · next heq =>
        rw [if_pos (by omega)] at hx
        rw [if_pos heq, hend]
        exact congrArg Prod.fst (Option.some.inj hx)
      · next hne => exact (if_neg hne).trans (h.slots (i - 1) x hx)
    case stored =>
      intro x hx
      rcases (List.mem_insertIdx (by omega)).mp hx with rfl | hx
      · refine ⟨Nat.le_refl _, ?_, hend ▸ hfit.readAt_putCell, ha⟩
        rw [NODE_DATA_SIZE_eq]
        dsimp only
        omega
      · have hlo := (h.stored x hx).lo_le
        refine (h.stored x hx).congr ((Nat.sub_le _ _).trans hlo) fun i hi _ => ?_
        exact hfit.get_putCell (by omega) (by omega) (by omega)
    case apart =>
      rw [List.map_insertIdx]
      refine ((List.perm_insertIdx _ _ (by rw [List.length_map]; omega)).pairwise_iff
        NoOverlap.symm).mpr (List.pairwise_cons.mpr ⟨?_, h.apart⟩)
      intro y hy
      obtain ⟨x, hx, rfl⟩ := List.mem_map.mp hy
      have hlo := (h.stored x hx).lo_le
      refine Or.inl ?_
      simp only [Placed.extent]
      omega

end Laid

/-! ## Taking a cell out -/

section DropSlot

variable {d : Buffer DATA_SIZE} {slot : Nat}

theorem dropSlot_eq (d : Buffer DATA_SIZE) (slot : Nat) :
    RawPage.dropSlot d slot =
      ((d.shiftDown 2 32 (d.word 2 0 - (slot + 1)) slot).setWord 2 0 (d.word 2 0 - 1)).setWord 2 2
        (d.word 2 2 - 2) := by
  have hshift : ∀ k < 5, (d.shiftDown 2 32 (d.word 2 0 - (slot + 1)) slot).word 2 k =
      d.word 2 k := by
    intro k hk
    exact Buffer.word_congr fun i hlo hhi => Buffer.get_shiftDown_of_outside (Or.inl (by omega))
  simp only [RawPage.dropSlot, RawPage.shiftSlotsLeft, SLOT_ARRAY_START_eq, SLOT_SIZE_eq]
  rw [Buffer.word_setWord_of_disjoint (Or.inr (by omega)), hshift 0 (by omega), hshift 2 (by omega)]

/-- The slot is in use, and the slots end where the header says and inside the page. -/
structure CanDrop (d : Buffer DATA_SIZE) (slot : Nat) : Prop where
  slot_lt : slot < d.word 2 0
  freeEnd_eq : d.word 2 2 = 32 + 2 * d.word 2 0
  freeEnd_le : d.word 2 2 ≤ 4072

namespace CanDrop

theorem get_dropSlot (h : CanDrop d slot) {i : Nat} (hi : 4 ≤ i)
    (hslots : i < 32 + 2 * slot ∨ 32 + 2 * (d.word 2 0 - 1) ≤ i) :
    (RawPage.dropSlot d slot).get i = d.get i := by
  have hslot := h.slot_lt
  rw [dropSlot_eq, Buffer.get_setWord_of_outside (by omega),
    Buffer.get_setWord_of_outside (by omega), Buffer.get_shiftDown_of_outside (by omega)]

theorem numKeys_dropSlot (h : CanDrop d slot) :
    (RawPage.dropSlot d slot).word 2 0 = d.word 2 0 - 1 := by
  have hfree := h.freeEnd_eq
  have hle := h.freeEnd_le
  rw [dropSlot_eq, Buffer.word_setWord_of_disjoint (Or.inl (by omega))]
  exact Buffer.word_setWord (by decide) (by omega)

theorem freeEnd_dropSlot (h : CanDrop d slot) :
    (RawPage.dropSlot d slot).word 2 2 = 32 + 2 * (d.word 2 0 - 1) := by
  have hslot := h.slot_lt
  have hfree := h.freeEnd_eq
  have hle := h.freeEnd_le
  rw [dropSlot_eq, Buffer.word_setWord (by decide) (by omega)]
  omega

/-- The slots: those before the one that goes, and those that moved down. -/
theorem slot_dropSlot (h : CanDrop d slot) {i : Nat} (hi : i < d.word 2 0 - 1) :
    (RawPage.dropSlot d slot).word 2 (32 + 2 * i) =
      if i < slot then d.word 2 (32 + 2 * i) else d.word 2 (32 + 2 * (i + 1)) := by
  have hfree := h.freeEnd_eq
  have hle := h.freeEnd_le
  have hdata := DATA_SIZE_eq
  split
  · exact Buffer.word_congr fun j hlo hhi => h.get_dropSlot (by omega) (by omega)
  · rw [dropSlot_eq, Buffer.word_setWord_of_disjoint (by omega),
      Buffer.word_setWord_of_disjoint (by omega), Buffer.word,
      Buffer.readAt_shiftDown (by omega) (by omega) (by omega), ← Buffer.word]

end CanDrop

end DropSlot

namespace Laid

variable {p : RawPage} {n : Node α} {placed : List (Placed α)} {slot : Nat}

/-- `remove_cell`. -/
theorem removeCell_eq (h : Laid p n placed) (hslot : slot < n.numKeys) :
    ∃ p', p.removeCell slot = .ok p' ∧ Laid p' (n.removeCell slot) (placed.eraseIdx slot) := by
  have hbounds := n.bounds
  have hnum : p.data.word 2 0 = n.numKeys := h.numKeys
  have hlen := h.length_eq
  have hdrop : CanDrop p.data slot := by
    have hfree : p.data.word 2 2 = 32 + 2 * n.numKeys := h.freeEnd
    exact ⟨by omega, by omega, by omega⟩
  have herase : (n.cells.eraseIdx slot).length = n.numKeys - 1 := List.length_eraseIdx_of_lt hslot
  refine ⟨{ p with data := RawPage.dropSlot p.data slot }, ?_, ?_⟩
  · rw [RawPage.removeCell, h.numKeys, if_pos hslot]
  · constructor
    case leaf => exact h.leaf
    case numKeys =>
      rw [Node.numKeys, Node.removeCell_cells, herase, ← hnum]
      exact hdrop.numKeys_dropSlot
    case freeEnd =>
      rw [Node.freeEnd, Node.numKeys, Node.removeCell_cells, herase, ← hnum]
      exact hdrop.freeEnd_dropSlot
    case cellEnd =>
      refine Eq.trans ?_ h.cellEnd
      exact Buffer.word_congr fun i hlo hhi => hdrop.get_dropSlot (by omega) (by omega)
    case hdr =>
      exact (RawPage.hdr_congr fun i hlo hhi =>
        hdrop.get_dropSlot (by omega) (by omega)).trans h.hdr
    case cells => rw [Node.removeCell_cells, ← h.cells, List.eraseIdx_map]
    case slots =>
      intro i x hx
      have hi : i < n.numKeys - 1 := by
        have hlt := (List.getElem?_eq_some_iff.mp hx).1
        rw [List.length_eraseIdx_of_lt (by omega)] at hlt
        omega
      refine (hdrop.slot_dropSlot (hnum ▸ hi)).trans ?_
      rw [List.getElem?_eraseIdx] at hx
      split at hx
      · next hlt => exact (if_pos hlt).trans (h.slots i x hx)
      · next hge => exact (if_neg hge).trans (h.slots (i + 1) x hx)
    case stored =>
      intro x hx
      have hx := (List.eraseIdx_sublist placed slot).subset hx
      have hlo := (h.stored x hx).lo_le
      refine (h.stored x hx).congr hlo fun i hi _ => ?_
      exact hdrop.get_dropSlot (by omega) (by omega)
    case apart => exact h.apart.sublist ((List.eraseIdx_sublist placed slot).map _)

end Laid

/-! ## Compaction -/

omit [CellCodec α] in
theorem Node.eq_of_fields {m n : Node α} (hhdr : m.hdr = n.hdr) (hend : m.cellEnd = n.cellEnd)
    (hcells : m.cells = n.cells) : m = n := by
  cases m
  cases n
  simp only [Node.mk.injEq]
  exact ⟨hhdr, hend, hcells⟩

/-- The node without its cells, as `compact` begins to rebuild it. -/
def Node.emptied {α : Type} [CellValue α] (n : Node α) : Node α :=
  { (Node.init n.hdr.parentId : Node α) with hdr := n.hdr }

omit [CellCodec α] in
theorem Node.emptied_cells (n : Node α) : n.emptied.cells = [] := rfl

omit [CellCodec α] in
theorem Node.Compacted.writeCell {n : Node α} (h : n.Compacted) {key : Bytes} {a : α}
    (hfull : n.isFull (cellSize key a) = false) :
    (n.writeCell n.numKeys key a hfull).Compacted ∧
      (n.writeCell n.numKeys key a hfull).cells = n.cells ++ [(key, a)] := by
  have hcells : n.cells.insertIdx n.numKeys (key, a) = n.cells ++ [(key, a)] := by
    have happend := insertIdx_append n.cells [] (key, a)
    rwa [List.append_nil] at happend
  have hroom := Node.isFull_eq_false.mp hfull
  refine ⟨?_, hcells⟩
  unfold Node.Compacted at h ⊢
  simp only [Node.writeCell, hcells, heapSize_append, heapSize_cons, heapSize_nil]
  simp only [Node.freeSpace, totalCellCost] at hroom
  omega

namespace Laid

variable {p : RawPage} {n : Node α} {placed : List (Placed α)}

/-- The live cells are the node's. -/
theorem liveCells_eq (h : Laid p n placed) {k i : Nat} (hk : i + k = n.numKeys) :
    p.liveCells α k i = .ok (n.cells.drop i) := by
  induction k generalizing i with
  | zero => rw [RawPage.liveCells, List.drop_eq_nil_of_le (by rw [← Node.numKeys]; omega)]
  | succ k ih =>
    have hi : i < n.cells.length := by rw [← Node.numKeys]; omega
    have hc := List.getElem?_eq_getElem hi
    have hkey : p.keyAt i = .ok n.cells[i].1 := by rw [h.keyAt_eq, Node.keyAt, hc]
    have hval : p.payloadAt α i = .ok n.cells[i].2 := by rw [h.payloadAt_eq, Node.valueAt, hc]
    rw [RawPage.liveCells, hkey, hval, ih (by omega), List.drop_eq_getElem_cons hi]
    rfl

/-- Cells are written one after another behind those that are there. -/
theorem writeCells_eq (h : Laid p n placed) (hn : n.Compacted) {cells : List (Bytes × α)}
    (hcost : cellsCost (n.cells ++ cells) ≤ NODE_USABLE_SIZE)
    (hcells : ∀ c ∈ cells, CellCodec.Storable c.2) :
    ∃ p' n' placed', p.writeCells cells = .ok p' ∧ Laid p' n' placed' ∧ n'.Compacted ∧
      n'.cells = n.cells ++ cells ∧ n'.hdr = n.hdr := by
  induction cells generalizing p n placed with
  | nil => exact ⟨p, n, placed, rfl, h, hn, (List.append_nil _).symm, rfl⟩
  | cons c cells ih =>
    have hroom : Room n.cells (c.1, c.2) := by
      rw [cellsCost_append, cellsCost_cons] at hcost
      exact (by omega : cellsCost n.cells + cellCost c ≤ NODE_USABLE_SIZE)
    have hfull := (hn.isFull_iff c.1 c.2).mpr hroom
    obtain ⟨p₁, placed₁, hwrite, h₁⟩ :=
      h.writeCell_eq hfull (Nat.le_refl _) (hcells c List.mem_cons_self)
    obtain ⟨hn₁, hcells₁⟩ := hn.writeCell hfull
    obtain ⟨p', n', placed', hrest, h', hn', hcells', hhdr'⟩ := ih h₁ hn₁
      (by rw [hcells₁, List.append_assoc]; exact hcost)
      (fun c hc => hcells c (List.mem_cons_of_mem _ hc))
    refine ⟨p', n', placed', ?_, h', hn', ?_, hhdr'⟩
    · rw [RawPage.writeCells, h.numKeys, hwrite]
      exact hrest
    · rw [hcells', hcells₁, List.append_assoc]
      rfl

theorem storable (h : Laid p n placed) : ∀ c ∈ n.cells, CellCodec.Storable c.2 := by
  intro c hc
  rw [← h.cells] at hc
  obtain ⟨x, hx, rfl⟩ := List.mem_map.mp hc
  exact (h.stored x hx).storable

/-- A node without cells and with the heap reset. -/
theorem of_empty (hn : n.cells = []) (hend : n.cellEnd = NODE_DATA_SIZE)
    (hleaf : p.isLeaf = CellCodec.leaf α) (hnum : p.numKeys = 0) (hfree : p.freeEnd = 32)
    (hend' : p.cellEnd = NODE_DATA_SIZE) (hhdr : p.hdr = n.hdr) : Laid p n [] where
  leaf := hleaf
  numKeys := by rw [hnum, Node.numKeys, hn, List.length_nil]
  freeEnd := by rw [hfree, Node.freeEnd, Node.numKeys, hn, List.length_nil]; rfl
  cellEnd := by rw [hend', hend]
  hdr := hhdr
  cells := by rw [hn]; rfl
  slots := nofun
  stored := nofun
  apart := List.Pairwise.nil

/-- The page that `compact` starts from. -/
theorem cleared_eq (h : Laid p n placed) :
    Laid p.cleared n.emptied [] := by
  refine of_empty rfl rfl h.leaf ?_ ?_ ?_ ?_
  · rw [RawPage.numKeys, RawPage.cleared, Buffer.word_setWord_of_disjoint (by omega),
      Buffer.word_setWord_of_disjoint (by omega)]
    exact Buffer.word_setWord (by decide) (by omega)
  · rw [RawPage.freeEnd, RawPage.cleared, Buffer.word_setWord_of_disjoint (by omega)]
    exact Buffer.word_setWord (by decide) (by decide)
  · exact Buffer.word_setWord (by decide) (by decide)
  · refine (RawPage.hdr_congr fun i hlo hhi => ?_).trans h.hdr
    have hi : i < (p.data.readAt 0 NODE_HEADER_SIZE).length := by
      rw [Buffer.length_readAt]
      exact hhi.trans (by decide)
    have hread : ((Buffer.zero : Buffer DATA_SIZE).writeAt 0
        (p.data.readAt 0 NODE_HEADER_SIZE)).get (0 + i) = _ :=
      Buffer.get_writeAt_of_lt hi (by rw [Buffer.length_readAt]; decide)
    rw [Nat.zero_add] at hread
    rw [RawPage.cleared, Buffer.get_setWord_of_outside (by omega),
      Buffer.get_setWord_of_outside (by omega), Buffer.get_setWord_of_outside (by omega), hread]
    simp [Buffer.readAt]

/-- The heap is rebuilt from the live cells. -/
theorem rebuild_eq (h : Laid p n placed) :
    ∃ p' placed', p.rebuild α = .ok p' ∧ Laid p' n.compact placed' := by
  have hlive : p.liveCells α p.numKeys 0 = .ok n.cells := by
    rw [h.numKeys, h.liveCells_eq (Nat.zero_add _), List.drop_zero]
  obtain ⟨p', n', placed', hwrite, h', hn', hcells', hhdr'⟩ :=
    h.cleared_eq.writeCells_eq rfl
      (by rw [n.emptied_cells, List.nil_append]; exact n.cost_le) h.storable
  have hnode : n' = n.compact := by
    have hend : n'.cellEnd + heapSize n'.cells = NODE_DATA_SIZE := hn'
    have hend' : n.compact.cellEnd + heapSize n.compact.cells = NODE_DATA_SIZE :=
      n.compacted_compact
    rw [n.emptied_cells, List.nil_append] at hcells'
    rw [hcells'] at hend
    rw [Node.compact_cells] at hend'
    exact Node.eq_of_fields hhdr' (by omega) hcells'
  refine ⟨p', placed', ?_, hnode ▸ h'⟩
  rw [RawPage.rebuild, hlive]
  exact hwrite

end Laid

variable (α) in
/-- `compact` rebuilds the pages with such cells. -/
def Compacts : Prop :=
  ∀ {p : RawPage} {n : Node α} {placed : List (Placed α)}, Laid p n placed →
    ∃ p' placed', p.compact = .ok p' ∧ Laid p' n.compact placed'

/-- Without cells it is enough to reset `cell_end`. -/
theorem compacts_of (hrebuild : ∀ p : RawPage, p.isLeaf = CellCodec.leaf α → p.numKeys ≠ 0 →
    p.compact = p.rebuild α) : Compacts α := by
  intro p n placed h
  by_cases hnum : p.numKeys = 0
  · have hnil : n.cells = [] := List.length_eq_zero_iff.mp (h.numKeys.symm.trans hnum)
    have hend : n.compact.cellEnd = NODE_DATA_SIZE := by simp [Node.compact, hnil]
    refine ⟨{ p with data := p.data.setWord 2 4 NODE_DATA_SIZE }, [], ?_, ?_⟩
    · rw [RawPage.compact, if_pos hnum]
    · refine Laid.of_empty hnil hend h.leaf ?_ ?_ ?_ ?_
      · exact (Buffer.word_setWord_of_disjoint (by omega)).trans hnum
      · refine (Buffer.word_setWord_of_disjoint (by omega)).trans (h.freeEnd.trans ?_)
        rw [Node.freeEnd, Node.numKeys, hnil]
        rfl
      · exact Buffer.word_setWord (by decide) (by decide)
      · exact (RawPage.hdr_congr fun i hlo hhi =>
          Buffer.get_setWord_of_outside (by omega)).trans h.hdr
  · rw [hrebuild p h.leaf hnum]
    exact h.rebuild_eq

/-! ## Changing a cell in place -/

namespace Laid

variable {p : RawPage} {n : Node α} {placed : List (Placed α)}

theorem apart_of_ne (h : Laid p n placed) {i j : Nat} {x y : Placed α}
    (hx : placed[i]? = some x) (hy : placed[j]? = some y) (hne : i ≠ j) :
    NoOverlap x.extent y.extent := by
  obtain ⟨hi, rfl⟩ := List.getElem?_eq_some_iff.mp hx
  obtain ⟨hj, rfl⟩ := List.getElem?_eq_some_iff.mp hy
  have hapart := List.pairwise_map.mp h.apart
  rcases Nat.lt_or_gt_of_ne hne with hlt | hgt
  · exact List.pairwise_iff_getElem.mp hapart i j hi hj hlt
  · exact (List.pairwise_iff_getElem.mp hapart j i hj hi hgt).symm

/-- A write inside one cell, to a cell of the same size. -/
theorem setCell_eq (h : Laid p n placed) {slot off : Nat} {c : Bytes × α} (c' : Bytes × α)
    (hx : placed[slot]? = some (off, c)) (hsize : cellSize c'.1 c'.2 = cellSize c.1 c.2)
    (ha : CellCodec.Storable c'.2) {d : Buffer DATA_SIZE}
    (hin : d.readAt off (cellSize c'.1 c'.2) = cellBytes c'.1 c'.2)
    (hout : ∀ i, i < off ∨ off + cellSize c.1 c.2 ≤ i → d.get i = p.data.get i)
    (hset : ∀ e ∈ n.cells[slot]?, cellSize c'.1 c'.2 = cellSize e.1 e.2) :
    Laid { p with data := d } (n.setCell slot c' hset) (placed.set slot (off, c')) := by
  have hbounds := n.bounds
  have hstored := h.stored _ (List.mem_of_getElem? hx)
  have hlo : n.cellEnd ≤ off := hstored.lo_le
  have hlow : ∀ i < 32 + 2 * n.numKeys, d.get i = p.data.get i := fun i hi =>
    hout i (Or.inl (by omega))
  have hlen := h.length_eq
  have hcells : (n.cells.set slot c').length = n.numKeys := List.length_set
  have hget : ∀ i, (placed.set slot (off, c'))[i]? =
      if slot = i then some (off, c') else placed[i]? := by
    intro i
    rw [List.getElem?_set, if_pos (List.getElem?_eq_some_iff.mp hx).1]
  constructor
  case leaf => exact h.leaf
  case numKeys =>
    rw [Node.numKeys, Node.setCell, hcells, ← h.numKeys]
    exact Buffer.word_congr fun i _ hhi => hlow i (by omega)
  case freeEnd =>
    rw [Node.freeEnd, Node.numKeys, Node.setCell, hcells]
    exact (Buffer.word_congr fun i _ hhi => hlow i (by omega)).trans h.freeEnd
  case cellEnd => exact (Buffer.word_congr fun i _ hhi => hlow i (by omega)).trans h.cellEnd
  case hdr => exact (RawPage.hdr_congr fun i _ hhi => hlow i (by omega)).trans h.hdr
  case cells => rw [List.map_set, h.cells, Node.setCell]
  case slots =>
    intro i x hix
    have hi := (List.getElem?_eq_some_iff.mp hix).1
    rw [List.length_set] at hi
    have hslot : RawPage.slotAt { p with data := d } i = p.slotAt i :=
      Buffer.word_congr fun j _ hhi => hlow j (by
        simp only [RawPage.slotOffset, SLOT_ARRAY_START_eq, SLOT_SIZE_eq] at hhi
        omega)
    rw [hget] at hix
    split at hix
    · next heq =>
      subst heq
      rw [hslot, h.slots slot _ hx, ← Option.some.inj hix]
    · rw [hslot, h.slots i x hix]
  case stored =>
    intro x hmem
    obtain ⟨i, hix⟩ := List.mem_iff_getElem?.mp hmem
    rw [hget] at hix
    split at hix
    · rw [← Option.some.inj hix]
      exact ⟨hlo, hsize ▸ hstored.le_end, hin, ha⟩
    · next hne =>
      have hstored' := h.stored x (List.mem_of_getElem? hix)
      have hapart := h.apart_of_ne hix hx (Ne.symm hne)
      refine hstored'.congr hstored'.lo_le fun j hlo' hhi' => hout j ?_
      simp only [NoOverlap, Placed.extent] at hapart
      omega
  case apart =>
    have hsame : (placed.set slot (off, c')).map Placed.extent = placed.map Placed.extent := by
      rw [List.map_set]
      refine List.ext_getElem? fun i => ?_
      rw [List.getElem?_set, List.length_map, if_pos (List.getElem?_eq_some_iff.mp hx).1]
      split
      · next heq =>
        subst heq
        rw [List.getElem?_map, hx, Option.map_some, Placed.extent, Placed.extent, hsize]
      · rfl
    rw [hsame]
    exact h.apart

end Laid

/-! ## Inserting -/

omit [CellCodec α] in
theorem Node.place_of_not_full {n : Node α} {slot : Nat} {key : Bytes} {a : α}
    (hfull : n.isFull (cellSize key a) = false) :
    n.place slot key a = (true, n.writeCell slot key a hfull) := by
  simp [Node.place, hfull]

omit [CellCodec α] in
theorem Node.place_of_full {n : Node α} {slot : Nat} {key : Bytes} {a : α}
    (hfull : n.isFull (cellSize key a) = true) :
    n.place slot key a = if h : n.compact.isFull (cellSize key a) = false then
      (true, n.compact.writeCell slot key a h) else (false, n.compact) := by
  simp [Node.place, hfull]

namespace Laid

variable {p : RawPage} {n : Node α} {placed : List (Placed α)}

/-- The end of `insert_leaf_cell` and `insert_separator`. -/
theorem place_eq (hcompact : Compacts α) (h : Laid p n placed) {slot : Nat}
    (hslot : slot ≤ n.numKeys) (key : Bytes) (a : α)
    (ha : cellSize key a ≤ NODE_DATA_SIZE → CellCodec.Storable a) :
    ∃ p' placed', p.place slot key a = .ok ((n.place slot key a).1, p') ∧
      Laid p' (n.place slot key a).2 placed' := by
  have hstorable : ∀ m : Node α, m.isFull (cellSize key a) = false → CellCodec.Storable a := by
    intro m hm
    have hbounds := m.bounds
    have hroom := Node.isFull_eq_false.mp hm
    simp only [Node.freeSpace, totalCellCost] at hroom
    exact ha (by rw [NODE_DATA_SIZE_eq]; omega)
  cases hfull : n.isFull (cellSize key a) with
  | false =>
    obtain ⟨p', placed', hwrite, h'⟩ := h.writeCell_eq hfull hslot (hstorable n hfull)
    refine ⟨p', placed', ?_, ?_⟩
    · simp only [RawPage.place, h.isFull_eq, hfull, Node.place_of_not_full hfull, bind, Except.bind,
        pure, Except.pure, Bool.false_eq_true, if_false, hwrite]
    · rw [Node.place_of_not_full hfull]
      exact h'
  | true =>
    obtain ⟨p₁, placed₁, hcomp, h₁⟩ := hcompact h
    by_cases hfull₁ : n.compact.isFull (cellSize key a) = false
    · obtain ⟨p', placed', hwrite, h'⟩ := h₁.writeCell_eq hfull₁ hslot (hstorable _ hfull₁)
      rw [Node.place_of_full hfull, dif_pos hfull₁]
      refine ⟨p', placed', ?_, h'⟩
      simp only [RawPage.place, h.isFull_eq, hfull, hcomp, h₁.isFull_eq, hfull₁, bind, Except.bind,
        pure, Except.pure, Bool.false_eq_true, if_false, if_true, hwrite]
    · rw [Node.place_of_full hfull, dif_neg hfull₁]
      refine ⟨p₁, placed₁, ?_, h₁⟩
      rw [Bool.not_eq_false] at hfull₁
      simp only [RawPage.place, h.isFull_eq, hfull, hcomp, h₁.isFull_eq, hfull₁, bind, Except.bind,
        pure, Except.pure, if_true]

end Laid

end Stored

/-! ## Leaves -/

theorem compacts_leaf : Compacts Bytes :=
  compacts_of fun p hleaf hnum => by
    have hleaf : p.isLeaf = true := hleaf
    rw [RawPage.compact, if_neg hnum, if_pos hleaf]

namespace Laid

variable {p : RawPage} {n : Node Bytes} {placed : List (Placed Bytes)}

theorem placeLeaf_eq (h : Laid p n placed) (key value : Bytes) {slot : Nat}
    (hslot : slot ≤ n.numKeys) :
    ∃ p' placed', p.place slot key value = .ok ((n.place slot key value).1, p') ∧
      Laid p' (n.place slot key value).2 placed' := by
  refine h.place_eq compacts_leaf hslot key value fun hsize => ?_
  rw [CellCodec.cellSize_eq, NODE_DATA_SIZE_eq] at hsize
  simp only [CellCodec.bytes, List.length_append, length_leBytes] at hsize
  exact (by omega : value.length < 2 ^ 16)

/-- A value is overwritten by one of its length. -/
theorem overwrite_eq (h : Laid p n placed) {slot off : Nat} {key old value : Bytes}
    (hx : placed[slot]? = some (off, (key, old))) (hlen : old.length = value.length)
    (hset : ∀ e ∈ n.cells[slot]?, cellSize key value = cellSize e.1 e.2) :
    Laid { p with data := p.data.writeAt (off + 2 + key.length + 2) value }
      (n.setCell slot (key, value) hset) (placed.set slot (off, (key, value))) := by
  have hstored := h.stored _ (List.mem_of_getElem? hx)
  have hle : off + cellSize key old ≤ 4072 := hstored.le_end
  have hsize : cellSize key value = cellSize key old := by
    simp only [cellSize, hlen]
  have hcell : cellSize key old = 2 + key.length + 2 + old.length := by
    simp only [cellSize, leafCellSize]
    omega
  have hbytes : ∀ v : Bytes, v.length = value.length → cellBytes key v =
      (leBytes 2 key.length ++ (key ++ leBytes 2 value.length)) ++ (v ++ []) := by
    intro v hv
    simp [cellBytes, CellCodec.bytes, hv]
  have hoff : off + 2 + key.length + 2 =
      off + (leBytes 2 key.length ++ (key ++ leBytes 2 value.length)).length := by
    simp only [List.length_append, length_leBytes]
    omega
  have hread := hstored.bytes
  refine h.setCell_eq (key, value) hx hsize ?_ ?_ ?_ hset
  · have hstorable : old.length < 2 ^ 16 := hstored.storable
    exact (by omega : value.length < 2 ^ 16)
  · dsimp only at hread ⊢
    rw [← length_cellBytes, hbytes old hlen] at hread
    rw [← length_cellBytes, hbytes value rfl, hoff]
    refine Buffer.readAt_writeAt_middle hlen.symm ?_ hread
    rw [← hbytes old hlen, length_cellBytes]
    exact hle
  · intro i hi
    dsimp only at hi
    exact Buffer.get_writeAt_of_outside (by omega)

/-- `insert_leaf_cell`. -/
theorem insertLeafCell_eq (h : Laid p n placed) (key value : Bytes) :
    ∃ p' placed', p.insertLeafCell key value = .ok ((n.insertLeafCell key value).1, p') ∧
      Laid p' (n.insertLeafCell key value).2 placed' := by
  have hleaf : p.isLeaf = true := h.leaf
  have hle : lowerBound n.cells key ≤ n.numKeys := lowerBound_le n.cells key
  obtain ⟨p₀, placed₀, hplace, h₀⟩ := h.placeLeaf_eq key value hle
  unfold Node.insertLeafCell
  dsimp only
  split
  · next hc =>
    have hge : ¬ lowerBound n.cells key < n.numKeys :=
      Nat.not_lt.mpr (List.getElem?_eq_none_iff.mp hc)
    refine ⟨p₀, placed₀, ?_, h₀⟩
    simp only [RawPage.insertLeafCell, hleaf, h.lowerBound_eq, h.numKeys, hge, hplace, bind,
      Except.bind, if_false, not_true_eq_false]
  · next k old hc =>
    have hlt : lowerBound n.cells key < n.numKeys := (List.getElem?_eq_some_iff.mp hc).1
    have hkey : p.keyAt (lowerBound n.cells key) = .ok k := by rw [h.keyAt_eq, Node.keyAt, hc]
    have hval : p.valueAt (lowerBound n.cells key) = .ok old := by
      rw [RawPage.valueAt, h.payloadAt_eq, Node.valueAt, hc]
    split
    · next hk =>
      subst hk
      split
      · next hlen =>
        obtain ⟨off, hx, hslot, hstored⟩ := h.exists_placed hc
        have hset : ∀ e ∈ n.cells[lowerBound n.cells k]?,
            cellSize k value = cellSize e.1 e.2 := by
          intro e he
          rw [hc] at he
          cases he
          simp only [cellSize, hlen]
        refine ⟨_, _, ?_, h.overwrite_eq hx hlen hset⟩
        simp only [RawPage.insertLeafCell, hleaf, h.lowerBound_eq, h.numKeys, hlt, hkey, hval, hlen,
          hslot, hstored.word_eq, bind, Except.bind, pure, Except.pure, if_true, if_false,
          not_true_eq_false]
      · next hlen =>
        obtain ⟨p₁, hremove, h₁⟩ := h.removeCell_eq hlt
        obtain ⟨p₂, placed₂, hplace₂, h₂⟩ := h₁.placeLeaf_eq k value (lowerBound_le _ k)
        refine ⟨p₂, placed₂, ?_, h₂⟩
        simp only [RawPage.insertLeafCell, hleaf, h.lowerBound_eq, h.numKeys, hlt, hkey, hval, hlen,
          hremove, h₁.lowerBound_eq, hplace₂, bind, Except.bind, pure, Except.pure, if_true,
          if_false, not_true_eq_false]
    · next hk =>
      refine ⟨p₀, placed₀, ?_, h₀⟩
      simp only [RawPage.insertLeafCell, hleaf, h.lowerBound_eq, h.numKeys, hlt, hkey, hk, hplace,
        bind, Except.bind, if_true, if_false, not_true_eq_false]

end Laid

/-! ## Internal nodes -/

theorem compacts_internal : Compacts PageId :=
  compacts_of fun p hleaf hnum => by
    have hleaf : p.isLeaf = false := hleaf
    rw [RawPage.compact, if_neg hnum, if_neg (by rw [hleaf]; decide)]

namespace Laid

variable {p : RawPage} {n : Node PageId} {placed : List (Placed PageId)}

/-- `insert_separator`. -/
theorem insertSeparator_eq (h : Laid p n placed) (key : Bytes) {rightChild : PageId}
    (hchild : InWord 4 rightChild) :
    ∃ p' placed', p.insertSeparator key rightChild =
        .ok ((n.insertSeparator key rightChild).1, p') ∧
      Laid p' (n.insertSeparator key rightChild).2 placed' := by
  have hleaf : p.isLeaf = false := h.leaf
  obtain ⟨p', placed', hplace, h'⟩ := h.place_eq compacts_internal
    (lowerBound_le n.cells key) key rightChild fun _ => hchild
  refine ⟨p', placed', ?_, h'⟩
  simp only [RawPage.insertSeparator, hleaf, h.lowerBound_eq, hplace, bind, Except.bind,
    Bool.false_eq_true, if_false, Node.insertSeparator]

/-- `update_separator_key`. -/
theorem updateSeparatorKey_eq (h : Laid p n placed) {slot : Nat} {k newKey : Bytes}
    {child : PageId} (hc : n.cells[slot]? = some (k, child)) (hlen : k.length = newKey.length) :
    ∃ p' n' placed', p.updateSeparatorKey slot newKey = .ok p' ∧
      n.updateSeparatorKey slot newKey = .ok n' ∧ n'.cells = n.cells.set slot (newKey, child) ∧
        Laid p' n' placed' := by
  have hleaf : p.isLeaf = false := h.leaf
  have hlt : slot < n.numKeys := (List.getElem?_eq_some_iff.mp hc).1
  have hkey : p.keyAt slot = .ok k := by rw [h.keyAt_eq, Node.keyAt, hc]
  obtain ⟨off, hx, hslot, hstored⟩ := h.exists_placed hc
  have hle : off + cellSize k child ≤ 4072 := hstored.le_end
  have hcell : cellSize k child = 2 + k.length + 4 := by simp only [cellSize, internalCellSize]
  have hsize : cellSize newKey child = cellSize k child := by
    simp only [cellSize, hlen]
  have hset : ∀ e ∈ n.cells[slot]?, cellSize newKey child = cellSize e.1 e.2 := by
    intro e he
    rw [hc] at he
    cases he
    exact hsize
  refine ⟨{ p with data := (p.data.setWord 2 off newKey.length).writeAt (off + 2) newKey },
    n.setCell slot (newKey, child) hset, _, ?_, ?_, rfl,
    h.setCell_eq (newKey, child) hx hsize hstored.storable ?_ ?_ hset⟩
  · simp only [RawPage.updateSeparatorKey, hleaf, h.numKeys, hlt, hkey, hlen, hslot, bind,
      Except.bind, pure, Except.pure, if_false, not_true_eq_false, ne_eq, Bool.false_eq_true]
  · unfold Node.updateSeparatorKey
    split
    · next hnone => rw [hc] at hnone; cases hnone
    · next k' child' hsome =>
      rw [hc] at hsome
      cases hsome
      rw [dif_pos hlen]
  · -- the length field is written with the value it had, then the key
    have hbytes : ∀ key : Bytes, key.length = newKey.length → cellBytes key child =
        leBytes 2 newKey.length ++ (key ++ intBytes 4 child) := by
      intro key hk
      rw [cellBytes, hk]
      rfl
    have hread := hstored.bytes
    dsimp only at hread ⊢
    rw [← length_cellBytes, hbytes k hlen] at hread
    have hend : off + (leBytes 2 newKey.length ++ (k ++ intBytes 4 child)).length ≤ DATA_SIZE := by
      rw [← hbytes k hlen, length_cellBytes]
      exact hle
    have hread₁ : (p.data.setWord 2 off newKey.length).readAt off
        (leBytes 2 newKey.length ++ (k ++ intBytes 4 child)).length =
          leBytes 2 newKey.length ++ (k ++ intBytes 4 child) :=
      @Buffer.readAt_writeAt_middle _ p.data off [] (leBytes 2 newKey.length) _ _ rfl hend hread
    rw [← length_cellBytes, hbytes newKey rfl]
    have hread₂ := Buffer.readAt_writeAt_middle hlen.symm hend hread₁
    rwa [length_leBytes] at hread₂
  · intro i hi
    dsimp only at hi
    rw [Buffer.get_writeAt_of_outside (by omega), Buffer.get_setWord_of_outside (by omega)]

/-- `update_child_at`. -/
theorem updateChildAt_eq (h : Laid p n placed) {slot : Nat} {k : Bytes} {child childId : PageId}
    (hc : n.cells[slot]? = some (k, child)) (hchild : InWord 4 childId) :
    ∃ p' n' placed', p.updateChildAt slot childId = .ok p' ∧
      n.updateChildAt slot childId = .ok n' ∧ n'.cells = n.cells.set slot (k, childId) ∧
        Laid p' n' placed' := by
  have hleaf : p.isLeaf = false := h.leaf
  have hlt : slot < n.numKeys := (List.getElem?_eq_some_iff.mp hc).1
  obtain ⟨off, hx, hslot, hstored⟩ := h.exists_placed hc
  have hle : off + cellSize k child ≤ 4072 := hstored.le_end
  have hcell : cellSize k child = 2 + k.length + 4 := by simp only [cellSize, internalCellSize]
  have hsize : cellSize k childId = cellSize k child := rfl
  have hset : ∀ e ∈ n.cells[slot]?, cellSize k childId = cellSize e.1 e.2 := by
    intro e he
    rw [hc] at he
    cases he
    exact hsize
  refine ⟨{ p with data := p.data.setInt 4 (off + 2 + k.length) childId },
    n.setCell slot (k, childId) hset, _, ?_, ?_, rfl,
    h.setCell_eq (k, childId) hx hsize hchild ?_ ?_ hset⟩
  · simp only [RawPage.updateChildAt, hleaf, h.numKeys, hlt, hslot, hstored.word_eq, bind,
      Except.bind, pure, Except.pure, if_false, not_true_eq_false, Bool.false_eq_true]
  · unfold Node.updateChildAt
    split
    · next hnone => rw [hc] at hnone; cases hnone
    · next k' child' hsome =>
      rw [hc] at hsome
      cases hsome
      rfl
  · have hbytes : ∀ c : PageId, cellBytes k c =
        (leBytes 2 k.length ++ k) ++ (intBytes 4 c ++ []) := by
      intro c
      simp [cellBytes, CellCodec.bytes]
    have hoff : off + 2 + k.length = off + (leBytes 2 k.length ++ k).length := by
      simp only [List.length_append, length_leBytes]
      omega
    have hread := hstored.bytes
    dsimp only at hread ⊢
    rw [← length_cellBytes, hbytes] at hread
    rw [← length_cellBytes, hbytes, hoff]
    refine Buffer.readAt_writeAt_middle (by simp) ?_ hread
    rw [← hbytes, length_cellBytes]
    exact hle
  · intro i hi
    dsimp only at hi
    exact Buffer.get_writeAt_of_outside (by rw [length_intBytes]; omega)

end Laid

end KeyVDB
