import KeyVDB.BTree.NodeRefine

/-!
# Runs of node operations on one page

What a user of `node.h` sees of a page: a sorted list of cells. A sequence of operations on the bytes
of a page that starts with `init_leaf` or `init_internal`, whose arguments meet the operations'
assertions and whose inserts return true, fails no assertion; after it the page is `Slotted`, and
reading it slot by slot gives the list that the same operations make of the empty list
(`slotted_of_execAll`). Keys of a leaf are distinct; an internal page may be given a separator twice.
-/

namespace KeyVDB

/-! ## Operations on lists -/

section Lists

variable {α : Type}

/-- The keys do not decrease. -/
def Ordered (l : List (Bytes × α)) : Prop := l.Pairwise fun x y => x.1 ≤ y.1

instance (l : List (Bytes × α)) : Decidable (Ordered l) :=
  inferInstanceAs (Decidable (List.Pairwise _ l))

def below (key : Bytes) (l : List (Bytes × α)) : List (Bytes × α) := l.filter fun c => c.1 < key

def above (key : Bytes) (l : List (Bytes × α)) : List (Bytes × α) := l.filter fun c => key < c.1

def notBelow (key : Bytes) (l : List (Bytes × α)) : List (Bytes × α) := l.filter fun c => key ≤ c.1

end Lists

/-- The operations on a leaf. -/
inductive LeafOp
  | insertLeafCell (key value : Bytes)
  | removeCell (slot : Nat)
  | compact

/-- A value of `page_id_t`. -/
def WordId := { id : PageId // InWord 4 id }

/-- The operations on an internal page. -/
inductive InternalOp
  | insertSeparator (key : Bytes) (rightChild : WordId)
  | removeCell (slot : Nat)
  | updateSeparatorKey (slot : Nat) (newKey : Bytes)
  | updateChildAt (slot : Nat) (childId : WordId)
  | compact

namespace LeafOp

/-- On a sorted list. -/
def apply (l : List (Bytes × Bytes)) : LeafOp → List (Bytes × Bytes)
  | insertLeafCell key value => below key l ++ (key, value) :: above key l
  | removeCell slot => l.eraseIdx slot
  | compact => l

/-- The arguments meet the assertions. -/
def Legal (l : List (Bytes × Bytes)) : LeafOp → Prop
  | removeCell slot => slot < l.length
  | _ => True

instance (l : List (Bytes × Bytes)) : (op : LeafOp) → Decidable (op.Legal l)
  | removeCell _ => inferInstanceAs (Decidable (_ < _))
  | insertLeafCell _ _ => instDecidableTrue
  | compact => instDecidableTrue

/-- On the bytes of a page: the result, which is true for the calls without one, and the page. -/
def exec (p : RawPage) : LeafOp → Except Exn (Bool × RawPage)
  | insertLeafCell key value => p.insertLeafCell key value
  | removeCell slot => return (true, ← p.removeCell slot)
  | compact => return (true, ← p.compact)

end LeafOp

namespace InternalOp

/-- On a sorted list. A separator goes before those with the same key. -/
def apply (l : List (Bytes × PageId)) : InternalOp → List (Bytes × PageId)
  | insertSeparator key child => below key l ++ (key, child.val) :: notBelow key l
  | removeCell slot => l.eraseIdx slot
  | updateSeparatorKey slot newKey => l.modify slot fun c => (newKey, c.2)
  | updateChildAt slot child => l.modify slot fun c => (c.1, child.val)
  | compact => l

/-- The arguments meet the assertions, and a new key leaves the keys in order. -/
def Legal (l : List (Bytes × PageId)) : InternalOp → Prop
  | removeCell slot => slot < l.length
  | updateSeparatorKey slot newKey =>
    (l[slot]?.map fun c => c.1.length) = some newKey.length ∧
      Ordered (apply l (updateSeparatorKey slot newKey))
  | updateChildAt slot _ => slot < l.length
  | _ => True

instance (l : List (Bytes × PageId)) : (op : InternalOp) → Decidable (op.Legal l)
  | removeCell _ => inferInstanceAs (Decidable (_ < _))
  | updateSeparatorKey _ _ => inferInstanceAs (Decidable (_ ∧ _))
  | updateChildAt _ _ => inferInstanceAs (Decidable (_ < _))
  | insertSeparator _ _ => instDecidableTrue
  | compact => instDecidableTrue

/-- On the bytes of a page. -/
def exec (p : RawPage) : InternalOp → Except Exn (Bool × RawPage)
  | insertSeparator key child => p.insertSeparator key child.val
  | removeCell slot => return (true, ← p.removeCell slot)
  | updateSeparatorKey slot newKey => return (true, ← p.updateSeparatorKey slot newKey)
  | updateChildAt slot child => return (true, ← p.updateChildAt slot child.val)
  | compact => return (true, ← p.compact)

end InternalOp

/-! ## Runs -/

section Runs

variable {ω α : Type} [CellValue α] [CellCodec α]

/-- The operations in order; `none` once an insert returns false. -/
def execAll (exec : RawPage → ω → Except Exn (Bool × RawPage)) :
    RawPage → List ω → Except Exn (Option RawPage)
  | p, [] => .ok (some p)
  | p, op :: ops => do
    let (done, p) ← exec p op
    if done then execAll exec p ops else return none

/-- Every operation is legal where it comes. -/
def LegalAll (apply : List (Bytes × α) → ω → List (Bytes × α))
    (legal : List (Bytes × α) → ω → Prop) : List (Bytes × α) → List ω → Prop
  | _, [] => True
  | l, op :: ops => legal l op ∧ LegalAll apply legal (apply l op) ops

instance decidableLegalAll {apply : List (Bytes × α) → ω → List (Bytes × α)}
    {legal : List (Bytes × α) → ω → Prop} [∀ l op, Decidable (legal l op)] :
    (l : List (Bytes × α)) → (ops : List ω) → Decidable (LegalAll apply legal l ops)
  | _, [] => instDecidableTrue
  | l, op :: ops =>
    have : Decidable (LegalAll apply legal (apply l op) ops) := decidableLegalAll (apply l op) ops
    inferInstanceAs (Decidable (legal l op ∧ LegalAll apply legal (apply l op) ops))

variable (α) in
/-- The length of a cell by its own length fields. -/
def RawPage.cellLength (p : RawPage) (slot : Nat) : Nat :=
  cellSize (p.data.readAt (p.slotAt slot + 2) (p.data.word 2 (p.slotAt slot)))
    (CellCodec.read p.data (p.slotAt slot + 2 + p.data.word 2 (p.slotAt slot)) : α)

/-- The layout of a page, and the list that it holds. -/
structure Slotted (p : RawPage) (l : List (Bytes × α)) : Prop where
  freeEnd_eq : p.freeEnd = SLOT_ARRAY_START + 2 * p.numKeys
  freeEnd_le : p.freeEnd ≤ p.cellEnd
  cellEnd_le : p.cellEnd ≤ NODE_DATA_SIZE
  /-- Every slot points to a cell in the heap. -/
  within : ∀ i < p.numKeys, p.cellEnd ≤ p.slotAt i ∧
    p.slotAt i + p.cellLength α i ≤ NODE_DATA_SIZE
  /-- No two live cells share a byte. -/
  disjoint : ∀ i j, i < j → j < p.numKeys →
    NoOverlap (p.slotAt i, p.slotAt i + p.cellLength α i) (p.slotAt j, p.slotAt j + p.cellLength α j)
  /-- The count and the lengths fit their 16 bits. -/
  fits : p.numKeys = l.length ∧
    ∀ c ∈ l, c.1.length < 2 ^ 16 ∧ CellCodec.Storable c.2
  /-- What `key_at` and `value_at` or `child_at` read, slot by slot. -/
  read : p.liveCells α p.numKeys 0 = .ok l

theorem Laid.slotted {p : RawPage} {n : Node α} {placed : List (Placed α)}
    (h : Laid p n placed) : Slotted p n.cells := by
  have hbounds := n.bounds
  have hlen := h.length_eq
  have hfree : p.freeEnd = 32 + 2 * n.numKeys := h.freeEnd
  have hat : ∀ i, i < p.numKeys → ∃ x ∈ placed, placed[i]? = some x ∧ p.slotAt i = x.1 ∧
      p.cellLength α i = cellSize x.2.1 x.2.2 := by
    intro i hi
    have hi : i < placed.length := by rw [hlen, ← h.numKeys]; exact hi
    have hx := List.getElem?_eq_getElem hi
    have hstored := h.stored _ (List.getElem_mem hi)
    refine ⟨_, List.getElem_mem hi, hx, h.slots i _ hx, ?_⟩
    rw [RawPage.cellLength, h.slots i _ hx, hstored.key_eq, hstored.payload_eq]
  constructor
  case freeEnd_eq => rw [hfree, h.numKeys, SLOT_ARRAY_START_eq]
  case freeEnd_le => rw [hfree, h.cellEnd]; exact hbounds.1
  case cellEnd_le => rw [h.cellEnd, NODE_DATA_SIZE_eq]; omega
  case within =>
    intro i hi
    obtain ⟨x, hx, -, hslot, hsize⟩ := hat i hi
    rw [hslot, hsize, h.cellEnd]
    exact ⟨(h.stored x hx).lo_le, (h.stored x hx).le_end⟩
  case disjoint =>
    intro i j hij hj
    obtain ⟨x, -, hx, hslot, hsize⟩ := hat i (hij.trans hj)
    obtain ⟨y, -, hy, hslot', hsize'⟩ := hat j hj
    rw [hslot, hsize, hslot', hsize']
    exact h.apart_of_ne hx hy hij.ne
  case fits =>
    refine ⟨h.numKeys, fun c hc => ⟨?_, h.storable c hc⟩⟩
    rw [← h.cells] at hc
    obtain ⟨x, hx, rfl⟩ := List.mem_map.mp hc
    exact (h.stored x hx).key_length
  case read => rw [h.numKeys, h.liveCells_eq (Nat.zero_add _), List.drop_zero]

/-- A page in its first state. -/
theorem laid_of_initHeader (p : RawPage) {parentId : PageId}
    (hleaf : p.isLeaf = CellCodec.leaf α) (hdata : p.data = RawPage.initHeader parentId) :
    Laid p { (Node.init parentId : Node α) with hdr := p.hdr } [] := by
  have hdis : ∀ (b : Buffer DATA_SIZE) (k off : Nat) (x : Int), k + 2 ≤ off →
      (b.setInt 4 off x).word 2 k = b.word 2 k := by
    intro b k off x hk
    exact Buffer.word_congr fun i hlo hhi => Buffer.get_writeAt_of_outside (Or.inl (by omega))
  refine Laid.of_empty rfl rfl hleaf ?_ ?_ ?_ rfl
  · rw [RawPage.numKeys, hdata, RawPage.initHeader, hdis _ _ _ _ (by omega),
      hdis _ _ _ _ (by omega), hdis _ _ _ _ (by omega), hdis _ _ _ _ (by omega),
      Buffer.word_setWord_of_disjoint (by omega), Buffer.word_setWord_of_disjoint (by omega)]
    decide
  · rw [RawPage.freeEnd, hdata, RawPage.initHeader, hdis _ _ _ _ (by omega),
      hdis _ _ _ _ (by omega), hdis _ _ _ _ (by omega), hdis _ _ _ _ (by omega),
      Buffer.word_setWord_of_disjoint (by omega)]
    exact Buffer.word_setWord (by decide) (by decide)
  · rw [RawPage.cellEnd, hdata, RawPage.initHeader, hdis _ _ _ _ (by omega),
      hdis _ _ _ _ (by omega), hdis _ _ _ _ (by omega), hdis _ _ _ _ (by omega)]
    exact Buffer.word_setWord (by decide) (by decide)

/-- One operation on the bytes does what it does on the list, and keeps `I`. -/
def StepRefines (exec : RawPage → ω → Except Exn (Bool × RawPage))
    (apply : List (Bytes × α) → ω → List (Bytes × α)) (legal : List (Bytes × α) → ω → Prop)
    (I : List (Bytes × α) → Prop) : Prop :=
  ∀ {p : RawPage} {n : Node α} {placed : List (Placed α)} (op : ω), Laid p n placed →
    I n.cells → legal n.cells op → ∃ done p' n' placed', exec p op = .ok (done, p') ∧
      (done = true → Laid p' n' placed' ∧ n'.cells = apply n.cells op ∧ I n'.cells)

/-- Then a run on the bytes does what the run on the list does. -/
theorem StepRefines.execAll {exec : RawPage → ω → Except Exn (Bool × RawPage)}
    {apply : List (Bytes × α) → ω → List (Bytes × α)} {legal : List (Bytes × α) → ω → Prop}
    {I : List (Bytes × α) → Prop} (hstep : StepRefines exec apply legal I) {p : RawPage}
    {n : Node α} {placed : List (Placed α)} (h : Laid p n placed) (hI : I n.cells)
    {ops : List ω} (hops : LegalAll apply legal n.cells ops) :
    ∃ r, KeyVDB.execAll exec p ops = .ok r ∧
      ∀ p', r = some p' → Slotted p' (ops.foldl apply n.cells) := by
  induction ops generalizing p n placed with
  | nil =>
    refine ⟨some p, rfl, fun p' hp => ?_⟩
    cases hp
    exact h.slotted
  | cons op ops ih =>
    obtain ⟨done, p₁, n₁, placed₁, hexec, hdone⟩ := hstep op h hI hops.1
    cases done with
    | false =>
      refine ⟨none, ?_, nofun⟩
      rw [KeyVDB.execAll, hexec]
      rfl
    | true =>
      obtain ⟨h₁, hcells, hI₁⟩ := hdone rfl
      obtain ⟨r, hrun, hr⟩ := ih h₁ hI₁ (hcells ▸ hops.2)
      rw [hcells] at hr
      refine ⟨r, ?_, hr⟩
      rw [KeyVDB.execAll, hexec]
      exact hrun

end Runs

/-! ## Leaves -/

section Parts

variable {α : Type} {l a b : List (Bytes × α)} {key : Bytes}

theorem below_eq (hlt : ∀ c ∈ a, c.1 < key) (hge : ∀ c ∈ b, key ≤ c.1) : below key (a ++ b) = a := by
  rw [below, List.filter_append, List.filter_eq_self.mpr (by simpa using hlt),
    List.filter_eq_nil_iff.mpr (by simpa using hge), List.append_nil]

theorem above_eq (hle : ∀ c ∈ a, c.1 ≤ key) (hgt : ∀ c ∈ b, key < c.1) : above key (a ++ b) = b := by
  rw [above, List.filter_append, List.filter_eq_nil_iff.mpr (by simpa using hle),
    List.filter_eq_self.mpr (by simpa using hgt), List.nil_append]

theorem notBelow_eq (hlt : ∀ c ∈ a, c.1 < key) (hge : ∀ c ∈ b, key ≤ c.1) :
    notBelow key (a ++ b) = b := by
  rw [notBelow, List.filter_append, List.filter_eq_nil_iff.mpr (by simpa using hlt),
    List.filter_eq_self.mpr (by simpa using hge), List.nil_append]

theorem below_others : below key (others key l) = below key l := by
  rw [below, others, List.filter_filter]
  refine List.filter_congr fun c _ => ?_
  simpa using fun h : c.1 < key => h.ne

theorem above_others : above key (others key l) = above key l := by
  rw [above, others, List.filter_filter]
  refine List.filter_congr fun c _ => ?_
  simpa using fun h : key < c.1 => h.ne'

/-- A key cuts an ordered list into what is below it and the rest. -/
theorem Ordered.cut (h : Ordered l) (key : Bytes) :
    l = below key l ++ notBelow key l ∧ Cut (below key l) (notBelow key l) key := by
  refine ⟨?_, ⟨fun c hc => by simpa using List.of_mem_filter hc,
    fun c hc => by simpa using List.of_mem_filter hc⟩⟩
  induction l with
  | nil => rfl
  | cons x l ih =>
    obtain ⟨hx, hl⟩ := List.pairwise_cons.mp h
    by_cases hk : x.1 < key
    · have hbelow : below key (x :: l) = x :: below key l :=
        List.filter_cons_of_pos (by simpa using hk)
      have habove : notBelow key (x :: l) = notBelow key l :=
        List.filter_cons_of_neg (by simpa using hk)
      rw [hbelow, habove, List.cons_append, ← ih hl]
    · -- everything from here on is at least the key
      have hge : ∀ c ∈ x :: l, key ≤ c.1 := by
        intro c hc
        rcases List.mem_cons.mp hc with rfl | hc
        · exact not_lt.mp hk
        · exact (not_lt.mp hk).trans (hx c hc)
      have hbelow : below key (x :: l) = [] := below_eq (a := []) nofun hge
      have habove : notBelow key (x :: l) = x :: l := notBelow_eq (a := []) nofun hge
      rw [hbelow, habove, List.nil_append]

theorem map_fst_set {slot : Nat} {c : Bytes × α} (hc : l[slot]? = some c) (x : α) :
    (l.set slot (c.1, x)).map Prod.fst = l.map Prod.fst := by
  obtain ⟨hlt, rfl⟩ := List.getElem?_eq_some_iff.mp hc
  refine List.ext_getElem? fun i => ?_
  rw [List.map_set, List.getElem?_set]
  split
  · next heq =>
    subst heq
    simp [hlt]
  · rfl

theorem Ordered.insert {c : α} (h : Ordered (a ++ b)) (hcut : Cut a b key) :
    Ordered (a ++ (key, c) :: b) := by
  obtain ⟨ha, hb, hab⟩ := List.pairwise_append.mp h
  refine List.pairwise_append.mpr ⟨ha, List.pairwise_cons.mpr ⟨hcut.ge, hb⟩, ?_⟩
  intro x hx y hy
  rcases List.mem_cons.mp hy with rfl | hy
  · exact (hcut.lt x hx).le
  · exact hab x hx y hy

end Parts

theorem leafOp_refines : StepRefines LeafOp.exec LeafOp.apply LeafOp.Legal Sorted := by
  intro p n placed op h hs hlegal
  cases op with
  | insertLeafCell key value =>
    obtain ⟨p', placed', hexec, h'⟩ := h.insertLeafCell_eq key value
    obtain ⟨a, b, hothers, hsort, hlt, hgt, hroom, hno⟩ := Node.insertLeafCell_spec hs key value
    have hbelow : below key n.cells = a := by
      rw [← below_others, hothers, below_eq hlt fun c hc => (hgt c hc).le]
    have habove : above key n.cells = b := by
      rw [← above_others, hothers, above_eq (fun c hc => (hlt c hc).le) hgt]
    by_cases hfits : Room (a ++ b) (key, value)
    · obtain ⟨n', hins, hcells, -⟩ := hroom hfits
      rw [hins] at hexec h'
      refine ⟨true, p', n', placed', hexec, fun _ => ⟨h', ?_, ?_⟩⟩
      · rw [hcells, LeafOp.apply, hbelow, habove]
      · rw [hcells]
        exact hsort.insert hlt hgt
    · obtain ⟨n', hins, -⟩ := hno hfits
      rw [hins] at hexec
      exact ⟨false, p', n', placed', hexec, nofun⟩
  | removeCell slot =>
    obtain ⟨p', hexec, h'⟩ := h.removeCell_eq hlegal
    refine ⟨true, p', _, _, ?_, fun _ => ⟨h', rfl, hs.sublist (List.eraseIdx_sublist _ _)⟩⟩
    rw [LeafOp.exec, hexec]
    rfl
  | compact =>
    obtain ⟨p', placed', hexec, h'⟩ := compacts_leaf h
    refine ⟨true, p', _, placed', ?_, fun _ => ⟨h', rfl, hs⟩⟩
    rw [LeafOp.exec, hexec]
    rfl

/-! ## Internal pages -/

theorem internalOp_refines :
    StepRefines InternalOp.exec InternalOp.apply InternalOp.Legal Ordered := by
  intro p n placed op h hs hlegal
  cases op with
  | insertSeparator key child =>
    obtain ⟨p', placed', hexec, h'⟩ := h.insertSeparator_eq key child.property
    obtain ⟨hcells, hcut⟩ := hs.cut key
    by_cases hroom : Room n.cells (key, child.val)
    · obtain ⟨n', hins, hcells', -⟩ := Node.place_room (lowerBound n.cells key) hroom
      have happly : n'.cells = below key n.cells ++ (key, child.val) :: notBelow key n.cells := by
        rw [hcells']
        conv => lhs; rw [hcells, hcut.lowerBound, insertIdx_append]
      rw [Node.insertSeparator, hins] at hexec h'
      refine ⟨true, p', n', placed', hexec, fun _ => ⟨h', happly, ?_⟩⟩
      rw [happly]
      rw [hcells] at hs
      exact hs.insert hcut
    · rw [Node.insertSeparator, Node.place_no_room hroom] at hexec
      exact ⟨false, p', n, placed', hexec, fun h => by cases h⟩
  | removeCell slot =>
    obtain ⟨p', hexec, h'⟩ := h.removeCell_eq hlegal
    refine ⟨true, p', _, _, ?_, fun _ => ⟨h', rfl, hs.sublist (List.eraseIdx_sublist _ _)⟩⟩
    rw [InternalOp.exec, hexec]
    rfl
  | updateSeparatorKey slot newKey =>
    obtain ⟨hlen, hord⟩ := hlegal
    obtain ⟨c, hc, hlen⟩ := Option.map_eq_some_iff.mp hlen
    obtain ⟨p', n', placed', hexec, -, hcells, h'⟩ := h.updateSeparatorKey_eq hc hlen
    have happly : n'.cells = InternalOp.apply n.cells (.updateSeparatorKey slot newKey) := by
      rw [hcells, InternalOp.apply, List.modify_eq_set_getElem?, hc]
      rfl
    refine ⟨true, p', n', placed', ?_, fun _ => ⟨h', happly, happly ▸ hord⟩⟩
    rw [InternalOp.exec, hexec]
    rfl
  | updateChildAt slot child =>
    obtain ⟨c, hc⟩ : ∃ c, n.cells[slot]? = some c := ⟨_, List.getElem?_eq_getElem hlegal⟩
    obtain ⟨p', n', placed', hexec, -, hcells, h'⟩ := h.updateChildAt_eq hc child.property
    have happly : n'.cells = InternalOp.apply n.cells (.updateChildAt slot child) := by
      rw [hcells, InternalOp.apply, List.modify_eq_set_getElem?, hc]
      rfl
    refine ⟨true, p', n', placed', ?_, fun _ => ⟨h', happly, ?_⟩⟩
    · rw [InternalOp.exec, hexec]
      rfl
    · -- the keys are the same
      have hkeys : n'.cells.map Prod.fst = n.cells.map Prod.fst := by
        rw [hcells, map_fst_set hc]
      have hord : (n.cells.map Prod.fst).Pairwise (· ≤ ·) := List.pairwise_map.mpr hs
      rw [← hkeys] at hord
      exact List.pairwise_map.mp hord
  | compact =>
    obtain ⟨p', placed', hexec, h'⟩ := compacts_internal h
    refine ⟨true, p', _, placed', ?_, fun _ => ⟨h', rfl, hs⟩⟩
    rw [InternalOp.exec, hexec]
    rfl

/-! ## From the first state on -/

/-- A page is a sorted list, whatever is done to it. -/
theorem slotted_of_execAll :
    (∀ (parentId : PageId) (ops : List LeafOp), LegalAll LeafOp.apply LeafOp.Legal [] ops →
      ∃ r, execAll LeafOp.exec (RawPage.initLeaf parentId) ops = .ok r ∧
        ∀ p, r = some p → Slotted p (ops.foldl LeafOp.apply [])) ∧
    (∀ (parentId : PageId) (ops : List InternalOp),
      LegalAll InternalOp.apply InternalOp.Legal [] ops →
      ∃ r, execAll InternalOp.exec (RawPage.initInternal parentId) ops = .ok r ∧
        ∀ p, r = some p → Slotted p (ops.foldl InternalOp.apply [])) := by
  constructor
  · intro parentId ops hops
    have hinit := laid_of_initHeader (α := Bytes) (RawPage.initLeaf parentId) rfl rfl
    exact leafOp_refines.execAll hinit List.Pairwise.nil hops
  · intro parentId ops hops
    have hinit := laid_of_initHeader (α := PageId) (RawPage.initInternal parentId) rfl rfl
    exact internalOp_refines.execAll hinit List.Pairwise.nil hops

/-- Two inserts out of order, an overwrite in place, one that grows its value, and a removal. -/
def leafRun : List LeafOp :=
  [.insertLeafCell [2] [7], .insertLeafCell [1] [8, 9], .insertLeafCell [2] [5],
    .insertLeafCell [1] [6], .removeCell 1, .compact]

/-- Two separators out of order; then the second one gets a new key and the first a new child. -/
def internalRun : List InternalOp :=
  [.insertSeparator [4] ⟨9, by decide⟩, .insertSeparator [2] ⟨7, by decide⟩,
    .updateSeparatorKey 1 [5], .updateChildAt 0 ⟨8, by decide⟩, .compact]

theorem slotted_of_leafRun_internalRun :
    (∃ p, execAll LeafOp.exec (RawPage.initLeaf INVALID_PAGE_ID) leafRun = .ok (some p) ∧
      Slotted p [(([1] : Bytes), ([6] : Bytes))]) ∧
    ∃ p, execAll InternalOp.exec (RawPage.initInternal INVALID_PAGE_ID) internalRun =
        .ok (some p) ∧ Slotted p [(([2] : Bytes), (8 : PageId)), ([5], 9)] := by
  constructor
  · obtain ⟨r, hr, hslotted⟩ := slotted_of_execAll.1 INVALID_PAGE_ID leafRun (by decide +kernel)
    have hsome : ((execAll LeafOp.exec (RawPage.initLeaf INVALID_PAGE_ID) leafRun).toOption.bind
        id).isSome = true := by decide +kernel
    cases r with
    | none => rw [hr] at hsome; cases hsome
    | some p => exact ⟨p, hr, hslotted p rfl⟩
  · obtain ⟨r, hr, hslotted⟩ := slotted_of_execAll.2 INVALID_PAGE_ID internalRun
      (by decide +kernel)
    have hsome : ((execAll InternalOp.exec (RawPage.initInternal INVALID_PAGE_ID)
        internalRun).toOption.bind id).isSome = true := by decide +kernel
    cases r with
    | none => rw [hr] at hsome; cases hsome
    | some p => exact ⟨p, hr, hslotted p rfl⟩

end KeyVDB
