import KeyVDB.BTree.SlottedPage

/-!
# When a page takes a cell

`is_full` looks at the space between the slots and the heap, where the bytes of dead cells are
missing until a compaction. Over the whole life of a page (`LeafStep`, `InternalStep`: the
operations of `node.cpp`, refused inserts among them, and the page ids that `split_into`,
`merge_from`, `steal_from_*` and `btree.cpp` write into its header) an insert nevertheless succeeds
exactly if the live cells and the new one fit: the answer depends on the cells and not on the
history.
-/

namespace KeyVDB

/-! ## The life of a page -/

/-- What is done to a leaf. -/
inductive LeafStep
  | op (o : LeafOp)
  | setHdrId (field : RawPage.HdrField) (id : WordId)

/-- What is done to an internal page. -/
inductive InternalStep
  | op (o : InternalOp)
  | pushFront (key : Bytes) (child : WordId)
  | setHdrId (field : RawPage.HdrField) (id : WordId)

/-- The page after the step; an insert that returns false is a step as well. -/
def LeafStep.exec (p : RawPage) : LeafStep → Except Exn RawPage
  | op o => do return (← o.exec p).2
  | setHdrId field id => .ok (p.setHdrId field id.val)

def InternalStep.exec (p : RawPage) : InternalStep → Except Exn RawPage
  | op o => do return (← o.exec p).2
  | pushFront key child => p.pushFront key child.val
  | setHdrId field id => .ok (p.setHdrId field id.val)

/-! ## The header's page ids -/

section Header

variable {α : Type} [CellValue α] [CellCodec α] {p : RawPage} {n : Node α}
  {placed : List (Placed α)}

theorem RawPage.get_setHdrId (p : RawPage) (field : HdrField) (id : PageId) {i : Nat}
    (hi : i < 8 ∨ 24 ≤ i) : (p.setHdrId field id).data.get i = p.data.get i := by
  refine Buffer.get_writeAt_of_outside ?_
  rw [length_intBytes]
  cases field <;> simp only [HdrField.offset] <;> omega

omit [CellCodec α] in
theorem Node.numKeys_withHdr (n : Node α) (hdr : NodeHeader) :
    ({ n with hdr } : Node α).numKeys = n.numKeys := rfl

omit [CellCodec α] in
theorem Node.freeEnd_withHdr (n : Node α) (hdr : NodeHeader) :
    ({ n with hdr } : Node α).freeEnd = n.freeEnd := rfl

/-- A page id in the header touches neither the slots nor the cells. -/
theorem Laid.setHdrId (h : Laid p n placed) (field : RawPage.HdrField) (id : PageId) :
    Laid (p.setHdrId field id) { n with hdr := (p.setHdrId field id).hdr } placed := by
  have hword : ∀ k, k + 2 ≤ 8 ∨ 24 ≤ k → (p.setHdrId field id).data.word 2 k = p.data.word 2 k :=
    fun k hk => Buffer.word_congr fun i hlo hhi => p.get_setHdrId field id (by omega)
  have hbounds := n.bounds
  constructor
  case leaf => exact h.leaf
  case numKeys =>
    rw [Node.numKeys_withHdr]
    exact (hword 0 (by omega)).trans h.numKeys
  case freeEnd =>
    rw [Node.freeEnd_withHdr]
    exact (hword 2 (by omega)).trans h.freeEnd
  case cellEnd => exact (hword 4 (by omega)).trans h.cellEnd
  case hdr => rfl
  case cells => exact h.cells
  case slots =>
    intro i x hx
    refine (hword _ (Or.inr ?_)).trans (h.slots i x hx)
    rw [RawPage.slotOffset, SLOT_ARRAY_START_eq]
    omega
  case stored =>
    intro x hx
    have hlo := (h.stored x hx).lo_le
    exact (h.stored x hx).congr hlo fun i hi _ => p.get_setHdrId field id (by omega)
  case apart => exact h.apart

end Header

/-! ## Steps keep the layout -/

/-- A leaf in any state of its life. -/
def LeafLaid (p : RawPage) : Prop :=
  ∃ (n : Node Bytes) (placed : List (Placed Bytes)), Laid p n placed ∧ Sorted n.cells

/-- An internal page in any state of its life. The keys need not be in order. -/
def InternalLaid (p : RawPage) : Prop :=
  ∃ (n : Node PageId) (placed : List (Placed PageId)), Laid p n placed

theorem sorted_insertLeafCell {n : Node Bytes} (hs : Sorted n.cells) (key value : Bytes) :
    Sorted (n.insertLeafCell key value).2.cells := by
  obtain ⟨a, b, -, hsort, hlt, hgt, hroom, hno⟩ := Node.insertLeafCell_spec hs key value
  by_cases hfits : Room (a ++ b) (key, value)
  · obtain ⟨n', hins, hcells, -⟩ := hroom hfits
    rw [hins, hcells]
    exact hsort.insert hlt hgt
  · obtain ⟨n', hins, hcells, -⟩ := hno hfits
    rw [hins, hcells]
    exact hsort

theorem slot_lt_of_removeCell {α : Type} [CellValue α] [CellCodec α] {p p' : RawPage} {n : Node α}
    {placed : List (Placed α)} (h : Laid p n placed) {slot : Nat}
    (hexec : p.removeCell slot = .ok p') : slot < n.numKeys := by
  rw [RawPage.removeCell, h.numKeys] at hexec
  split at hexec
  · assumption
  · cases hexec

theorem LeafLaid.op {p p' : RawPage} (hp : LeafLaid p) {o : LeafOp} {done : Bool}
    (hexec : o.exec p = .ok (done, p')) : LeafLaid p' := by
  obtain ⟨n, placed, h, hs⟩ := hp
  cases o with
  | insertLeafCell key value =>
    obtain ⟨q, placed', hq, h'⟩ := h.insertLeafCell_eq key value
    rw [LeafOp.exec, hq] at hexec
    cases hexec
    exact ⟨_, placed', h', sorted_insertLeafCell hs key value⟩
  | removeCell slot =>
    obtain ⟨q, hq, hret⟩ := except_bind_eq_ok.mp hexec
    cases hret
    obtain ⟨q', hq', h'⟩ := h.removeCell_eq (slot_lt_of_removeCell h hq)
    cases hq.symm.trans hq'
    exact ⟨_, _, h', hs.sublist (List.eraseIdx_sublist _ _)⟩
  | compact =>
    obtain ⟨q, hq, hret⟩ := except_bind_eq_ok.mp hexec
    cases hret
    obtain ⟨q', placed', hq', h'⟩ := compacts_leaf h
    cases hq.symm.trans hq'
    exact ⟨_, placed', h', hs⟩

theorem LeafLaid.step {p p' : RawPage} (hp : LeafLaid p) (s : LeafStep)
    (hexec : s.exec p = .ok p') : LeafLaid p' := by
  cases s with
  | op o =>
    obtain ⟨⟨done, q⟩, hq, hret⟩ := except_bind_eq_ok.mp hexec
    cases hret
    exact hp.op hq
  | setHdrId field id =>
    obtain ⟨n, placed, h, hs⟩ := hp
    cases hexec
    exact ⟨_, placed, h.setHdrId field id.val, hs⟩

/-- A slot that `update_separator_key` and `update_child_at` accept is in use. -/
theorem exists_cell {n : Node PageId} {slot : Nat} (h : slot < n.numKeys) :
    ∃ k child, n.cells[slot]? = some (k, child) :=
  ⟨_, _, List.getElem?_eq_getElem h⟩

theorem InternalLaid.op {p p' : RawPage} (hp : InternalLaid p) {o : InternalOp} {done : Bool}
    (hexec : o.exec p = .ok (done, p')) : InternalLaid p' := by
  obtain ⟨n, placed, h⟩ := hp
  cases o with
  | insertSeparator key child =>
    obtain ⟨q, placed', hq, h'⟩ := h.insertSeparator_eq key child.property
    rw [InternalOp.exec, hq] at hexec
    cases hexec
    exact ⟨_, placed', h'⟩
  | removeCell slot =>
    obtain ⟨q, hq, hret⟩ := except_bind_eq_ok.mp hexec
    cases hret
    obtain ⟨q', hq', h'⟩ := h.removeCell_eq (slot_lt_of_removeCell h hq)
    cases hq.symm.trans hq'
    exact ⟨_, _, h'⟩
  | updateSeparatorKey slot newKey =>
    obtain ⟨q, hq, hret⟩ := except_bind_eq_ok.mp hexec
    cases hret
    have hleaf : p.isLeaf = false := h.leaf
    have hslot : slot < n.numKeys := by
      by_contra hge
      simp [RawPage.updateSeparatorKey, hleaf, h.numKeys, hge, bind, Except.bind, throw,
        throwThe, MonadExceptOf.throw] at hq
    obtain ⟨k, child, hc⟩ := exists_cell hslot
    have hkey : p.keyAt slot = .ok k := by rw [h.keyAt_eq, Node.keyAt, hc]
    have hlen : k.length = newKey.length := by
      by_contra hne
      simp [RawPage.updateSeparatorKey, hleaf, h.numKeys, hslot, hkey, hne, bind, Except.bind,
        throw, throwThe, MonadExceptOf.throw] at hq
    obtain ⟨q', n', placed', hq', -, -, h'⟩ := h.updateSeparatorKey_eq hc hlen
    cases hq.symm.trans hq'
    exact ⟨n', placed', h'⟩
  | updateChildAt slot child =>
    obtain ⟨q, hq, hret⟩ := except_bind_eq_ok.mp hexec
    cases hret
    have hleaf : p.isLeaf = false := h.leaf
    have hslot : slot < n.numKeys := by
      by_contra hge
      simp [RawPage.updateChildAt, hleaf, h.numKeys, hge, bind, Except.bind, throw, throwThe,
        MonadExceptOf.throw] at hq
    obtain ⟨k, old, hc⟩ := exists_cell hslot
    obtain ⟨q', n', placed', hq', -, -, h'⟩ := h.updateChildAt_eq hc child.property
    cases hq.symm.trans hq'
    exact ⟨n', placed', h'⟩
  | compact =>
    obtain ⟨q, hq, hret⟩ := except_bind_eq_ok.mp hexec
    cases hret
    obtain ⟨q', placed', hq', h'⟩ := compacts_internal h
    cases hq.symm.trans hq'
    exact ⟨_, placed', h'⟩

theorem InternalLaid.step {p p' : RawPage} (hp : InternalLaid p) (s : InternalStep)
    (hexec : s.exec p = .ok p') : InternalLaid p' := by
  cases s with
  | op o =>
    obtain ⟨⟨done, q⟩, hq, hret⟩ := except_bind_eq_ok.mp hexec
    cases hret
    exact hp.op hq
  | pushFront key child =>
    obtain ⟨n, placed, h⟩ := hp
    obtain ⟨q, placed', hq, h'⟩ := h.place_eq compacts_internal (Nat.zero_le _) key child.val
      fun _ => child.property
    obtain ⟨⟨done, q'⟩, hplace, hret⟩ := except_bind_eq_ok.mp hexec
    cases hplace.symm.trans hq
    cases hdone : (n.place 0 key child.val).1 with
    | false => rw [hdone] at hret; cases hret
    | true =>
      rw [hdone] at hret
      cases hret
      exact ⟨_, placed', h'⟩
  | setHdrId field id =>
    obtain ⟨n, placed, h⟩ := hp
    cases hexec
    exact ⟨_, placed, h.setHdrId field id.val⟩

/-! ## Whole lives -/

theorem LeafLaid.of_run {parentId : PageId} {steps : List LeafStep} {p : RawPage}
    (hrun : steps.foldlM LeafStep.exec (RawPage.initLeaf parentId) = .ok p) : LeafLaid p :=
  foldlM_inv (fun _ s _ hp hs => hp.step s hs)
    ⟨_, [], laid_of_initHeader (α := Bytes) (RawPage.initLeaf parentId) rfl rfl,
      List.Pairwise.nil⟩ hrun

theorem InternalLaid.of_run {parentId : PageId} {steps : List InternalStep} {p : RawPage}
    (hrun : steps.foldlM InternalStep.exec (RawPage.initInternal parentId) = .ok p) :
    InternalLaid p :=
  foldlM_inv (fun _ s _ hp hs => hp.step s hs)
    ⟨_, [], laid_of_initHeader (α := PageId) (RawPage.initInternal parentId) rfl rfl⟩ hrun

/-- What is read from a page, slot by slot. -/
theorem Laid.read {α : Type} [CellValue α] [CellCodec α] {p : RawPage} {n : Node α}
    {placed : List (Placed α)} (h : Laid p n placed) : p.liveCells α p.numKeys 0 = .ok n.cells := by
  rw [h.numKeys, h.liveCells_eq (Nat.zero_add _), List.drop_zero]

/-- **Fullness is exact.** Whatever was done to a page before, an insert into it returns, and it
returns true exactly if the live cells (in a leaf those with other keys) and the new cell, each with
its slot, fit the page. -/
theorem insert_done_iff_fits (parentId : PageId) :
    (∀ (steps : List LeafStep) (p : RawPage),
      steps.foldlM LeafStep.exec (RawPage.initLeaf parentId) = .ok p →
      ∃ cells, p.liveCells Bytes p.numKeys 0 = .ok cells ∧
        ∀ key value : Bytes, ∃ done p', p.insertLeafCell key value = .ok (done, p') ∧
          (done = true ↔
            cellsCost (others key cells) + cellCost (key, value) ≤ NODE_USABLE_SIZE)) ∧
    (∀ (steps : List InternalStep) (p : RawPage),
      steps.foldlM InternalStep.exec (RawPage.initInternal parentId) = .ok p →
      ∃ cells, p.liveCells PageId p.numKeys 0 = .ok cells ∧
        ∀ (key : Bytes) (child : WordId), ∃ done p',
          p.insertSeparator key child.val = .ok (done, p') ∧
          (done = true ↔ cellsCost cells + cellCost (key, child.val) ≤ NODE_USABLE_SIZE)) := by
  constructor
  · intro steps p hrun
    obtain ⟨n, placed, h, hs⟩ := LeafLaid.of_run hrun
    refine ⟨n.cells, h.read, fun key value => ?_⟩
    obtain ⟨p', placed', hexec, -⟩ := h.insertLeafCell_eq key value
    exact ⟨_, p', hexec, Node.insertLeafCell_done_iff hs key value⟩
  · intro steps p hrun
    obtain ⟨n, placed, h⟩ := InternalLaid.of_run hrun
    refine ⟨n.cells, h.read, fun key child => ?_⟩
    obtain ⟨p', placed', hexec, -⟩ := h.insertSeparator_eq key child.property
    exact ⟨_, p', hexec, Node.insertSeparator_accepts_iff n key child.val⟩

theorem inWord_small (id : UInt8) : InWord 4 (id.toNat : PageId) := by
  have hlt := id.toNat_lt
  exact Int.bmod_eq_of_le (by omega) (by omega)

def smallId (id : UInt8) : WordId := ⟨id.toNat, inWord_small id⟩

/-- A cell comes and goes, and the leaf gets a right sibling. -/
def leafLife : List LeafStep :=
  [.op (.insertLeafCell [1] [7]), .op (.insertLeafCell [2] [8]), .op (.removeCell 0),
    .setHdrId .rightSibling (smallId 5)]

/-- A separator is put in and another one before it, which is not in order. -/
def internalLife : List InternalStep :=
  [.setHdrId .firstChild (smallId 3), .op (.insertSeparator [4] (smallId 9)),
    .pushFront [6] (smallId 7)]

theorem insert_done_iff_fits_life :
    (∃ p q, leafLife.foldlM LeafStep.exec (RawPage.initLeaf INVALID_PAGE_ID) = .ok p ∧
      p.insertLeafCell [2] (List.replicate 4033 0) = .ok (true, q)) ∧
    ∃ p q, internalLife.foldlM InternalStep.exec (RawPage.initInternal INVALID_PAGE_ID) = .ok p ∧
      p.insertSeparator (List.replicate 4015 0) 2 = .ok (false, q) := by
  constructor
  · have hok : ((leafLife.foldlM LeafStep.exec (RawPage.initLeaf INVALID_PAGE_ID)).toOption.map
        fun p => p.liveCells Bytes p.numKeys 0) = some (.ok [([2], [8])]) := by decide +kernel
    cases hrun : leafLife.foldlM LeafStep.exec (RawPage.initLeaf INVALID_PAGE_ID) with
    | error e => rw [hrun] at hok; cases hok
    | ok p =>
      rw [hrun] at hok
      obtain ⟨cells, hcells, hins⟩ := (insert_done_iff_fits INVALID_PAGE_ID).1 leafLife p hrun
      cases hcells.symm.trans (Option.some.inj hok)
      obtain ⟨done, q, hq, hdone⟩ := hins [2] (List.replicate 4033 0)
      have htrue : done = true := hdone.mpr (by decide +kernel)
      rw [htrue] at hq
      exact ⟨p, q, rfl, hq⟩
  · have hok : ((internalLife.foldlM InternalStep.exec
        (RawPage.initInternal INVALID_PAGE_ID)).toOption.map
        fun p => p.liveCells PageId p.numKeys 0) = some (.ok [([6], 7), ([4], 9)]) := by
      decide +kernel
    cases hrun : internalLife.foldlM InternalStep.exec
        (RawPage.initInternal INVALID_PAGE_ID) with
    | error e => rw [hrun] at hok; cases hok
    | ok p =>
      rw [hrun] at hok
      obtain ⟨cells, hcells, hins⟩ :=
        (insert_done_iff_fits INVALID_PAGE_ID).2 internalLife p hrun
      cases hcells.symm.trans (Option.some.inj hok)
      obtain ⟨done, q, hq, hdone⟩ := hins (List.replicate 4015 0) ⟨2, by decide⟩
      have hfalse : done = false := by
        rw [← Bool.not_eq_true, hdone]
        decide +kernel
      rw [hfalse] at hq
      exact ⟨p, q, rfl, hq⟩

end KeyVDB
