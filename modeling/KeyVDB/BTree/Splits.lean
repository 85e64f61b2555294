import KeyVDB.BTree.Structure
import KeyVDB.Lib.Run

/-!
# What a split leaves

Where a page is cut depends on the bytes of its cells alone, not on the cell that waits for room. So
the half that is chosen may have no room, and an internal page that is cut at its last separator
keeps none of them in its right half.
-/

namespace KeyVDB

namespace BTree

/-! ## Internal pages without separators -/

section Separators

variable {s₀ : Store} {t t₀ : BTree Store} {lab : Labels} {m : Bytes → Option Bytes}

/-- The pages that a search can come to. -/
inductive InTree (t : BTree Store) : PageId → Prop
  | root : InTree t t.rootPageId
  | child {p c : PageId} {n : Node PageId} : InTree t p →
      t.store.pages p = { pageId := p, data := .internal n } → c ∈ n.children → InTree t c

theorem node_of_page {p : PageId} {n : Node PageId}
    (h : t.store.pages p = { pageId := p, data := .internal n }) :
    (view t).node p = some (.internal n.bare) := by
  change (t.store.pages p).node p = _
  rw [h]
  exact Page.node_mk (.internal n)

theorem InTree.label (h : Shape (view t) lab lab m) {p : PageId} (hp : InTree t p) :
    ∃ L, lab p = some L := by
  induction hp with
  | root =>
    obtain ⟨j, hroot, -⟩ := h.root
    exact ⟨_, hroot⟩
  | child _ hpage hc ih =>
    obtain ⟨L, hL⟩ := ih
    exact h.child_seen hL (node_of_page hpage) hc

/-- Every internal node of the tree has a separator, that is two children. -/
def Separators (t : BTree Store) : Prop :=
  ∀ p n, InTree t p → t.store.pages p = { pageId := p, data := .internal n } → n.cells ≠ []

/-- An insertion that returns. -/
def insertStep (t : BTree Store) (kv : Bytes × Bytes) : Option (BTree Store) :=
  match exec (insert kv.1 kv.2) t with
  | (.ok _, t') => some t'
  | (.error _, _) => none

theorem insertStep_eq_some {t' : BTree Store} {kv : Bytes × Bytes}
    (h : insertStep t kv = some t') : exec (insert kv.1 kv.2) t = (.ok (), t') := by
  unfold insertStep at h
  split at h
  · next hexec =>
    cases h
    exact hexec
  · cases h

/-- What a run of insertions keeps: the tree is at rest, and every internal node has a separator. -/
def Rooted (s₀ : Store) (t : BTree Store) : Prop :=
  ∃ m lab, Shape (view t) lab lab m ∧ Links s₀ (fullView t) lab ∧ Separated (view t) lab

theorem Rooted.insertStep {t' : BTree Store} {kv : Bytes × Bytes} (h : Rooted s₀ t)
    (hkeep : (view t).InsertSplitsKeep kv.1 kv.2) (hstep : insertStep t kv = some t') :
    Rooted s₀ t' := by
  obtain ⟨m, lab, hs, hl, hsep⟩ := h
  obtain ⟨m', -, -, lab', hs', hl', hsep'⟩ :=
    ends_insert_rests hs hl t () t' rfl (insertStep_eq_some hstep)
  exact ⟨m', lab', hs', hl', hsep' ⟨hsep, hkeep⟩⟩

theorem Rooted.separators (h : Rooted s₀ t) : Separators t := by
  obtain ⟨m, lab, hs, -, hsep⟩ := h
  intro p n hp hpage
  obtain ⟨L, hL⟩ := hp.label hs
  exact hsep p L n.bare hL (node_of_page hpage)

/-- A new tree has one leaf and no internal node. -/
theorem rooted_create (hpool : (view { store := s₀ }).PoolOk)
    (hcreate : exec create { store := s₀ } = (.ok (), t₀)) : Rooted s₀ t₀ := by
  obtain ⟨lab, hs, hl, hsep⟩ := ends_create (F := fullView { store := s₀ }) hpool rfl rfl
    { store := s₀ } () t₀ rfl hcreate
  exact ⟨_, lab, hs, hl, hsep trivial⟩

/-- **Insertions keep the separators** as long as no internal page is cut at its last separator while
the new one goes to the left half. -/
theorem separators_of_run (kvs : List (Bytes × Bytes)) (hpool : (view { store := s₀ }).PoolOk)
    (hcreate : exec create { store := s₀ } = (.ok (), t₀)) (hrun : run insertStep t₀ kvs = some t)
    (hkeep : Steps insertStep (fun t kv => (view t).InsertSplitsKeep kv.1 kv.2) t₀ kvs) :
    Separators t := by
  have hrooted := run_inv (fun s a s' hs hC hstep => Rooted.insertStep hs hC hstep)
    (rooted_create hpool hcreate) hkeep hrun
  exact hrooted.separators

/-- Keys of 1900 bytes, given by their first byte, with empty values. -/
def longKeys (letters : List UInt8) : List (Bytes × Bytes) :=
  letters.map fun letter => (letter :: List.replicate 1899 0, [])

/-- The children of an internal page. -/
def childIds (t : BTree Store) (p : PageId) : Option (List PageId) :=
  match (view t).node p with
  | some (.internal n) => some n.children
  | _ => none

theorem page_of_childIds {p : PageId} {ids : List PageId} (h : childIds t p = some ids) :
    ∃ n : Node PageId, t.store.pages p = { pageId := p, data := .internal n } ∧ n.children = ids := by
  unfold childIds at h
  split at h
  · next N hN =>
    obtain ⟨n | n, hpage, hbare⟩ := node_content hN
    · cases hbare
    · cases hbare
      exact ⟨n, hpage, Option.some.inj h⟩
  · cases h

theorem poolOk_init : (view { store := Store.init }).PoolOk := ⟨List.nodup_nil, nofun, by decide⟩

/-- The third separator comes to a root with two of them, below both: the right half of the root is
left with its first child only. -/
theorem not_separators_longKeys :
    ¬ ∀ (s₀ : Store) (t₀ t : BTree Store) (kvs : List (Bytes × Bytes)),
      (view { store := s₀ }).PoolOk → exec create { store := s₀ } = (.ok (), t₀) →
      run insertStep t₀ kvs = some t → Separators t := by
  intro h
  have hcheck : (run insertStep (exec create { store := Store.init }).2
      (longKeys [9, 8, 7, 6, 5])).map (fun t => (t.rootPageId, childIds t 7, childIds t 6)) =
      some (7, some [3, 6], some [2]) := by decide +kernel
  obtain ⟨t, hrun, ht⟩ := Option.map_eq_some_iff.mp hcheck
  obtain ⟨hroot, hids⟩ := Prod.mk.inj ht
  obtain ⟨h7, h6⟩ := Prod.mk.inj hids
  obtain ⟨n7, hpage7, hchildren7⟩ := page_of_childIds h7
  obtain ⟨n6, hpage6, hchildren6⟩ := page_of_childIds h6
  have hcreate := exec_eq_of_isOk (x := create) (s := { store := Store.init }) (by decide +kernel)
  have hin : InTree t 6 := .child (hroot ▸ InTree.root) hpage7 (by rw [hchildren7]; decide)
  refine h Store.init _ t _ poolOk_init hcreate hrun 6 n6 hin hpage6 ?_
  have hlength := congrArg List.length hchildren6
  simpa [Node.children] using hlength

/-- In ascending order they go to the right half. -/
theorem separators_of_run_longKeys :
    ∃ t, run insertStep (exec create { store := Store.init }).2 (longKeys [5, 6, 7, 8, 9]) = some t ∧
      Separators t := by
  have hsome : (run insertStep (exec create { store := Store.init }).2
      (longKeys [5, 6, 7, 8, 9])).isSome = true := by decide +kernel
  obtain ⟨t, hrun⟩ := Option.isSome_iff_exists.mp hsome
  exact ⟨t, hrun, separators_of_run _ poolOk_init (exec_eq_of_isOk (by decide +kernel)) hrun
    (by decide +kernel)⟩

end Separators

end BTree

/-! ## Where a page is cut -/

section Midpoint

variable {α : Type} [CellValue α]

/-- The cut by bytes: the cells before it are one cell, or take at most half; with the next one they
take more. -/
structure Midpoint (cells a : List (Bytes × α)) (c : Bytes × α) (b : List (Bytes × α)) : Prop where
  cells_eq : cells = a ++ c :: b
  ne_nil : a ≠ []
  le_half : a.length = 1 ∨ cellsCost a ≤ cellsCost cells / 2
  half_lt : cellsCost cells / 2 < cellsCost a + cellCost c

theorem splitIdx_eq {half i acc : Nat} {x y : List (Bytes × α)} {c : Bytes × α} (hi : 0 < i)
    (hx : x = [] ∨ acc + cellsCost x ≤ half) (hc : half < acc + cellsCost x + cellCost c) :
    Node.splitIdx half (x ++ c :: y) i acc = i + x.length := by
  induction x generalizing i acc with
  | nil =>
    rw [cellsCost_nil, Nat.add_zero] at hc
    rw [List.nil_append, Node.splitIdx, if_pos ⟨hc, hi⟩, List.length_nil, Nat.add_zero]
  | cons d x ih =>
    have hle : acc + cellsCost (d :: x) ≤ half := hx.resolve_left (List.cons_ne_nil d x)
    rw [cellsCost_cons] at hle hc
    rw [List.cons_append, Node.splitIdx, if_neg (by omega), ih (by omega) (Or.inr (by omega))
      (by omega), List.length_cons]
    omega

theorem exists_cut {half acc : Nat} {cells : List (Bytes × α)} (hne : cells ≠ [])
    (h : half < acc + cellsCost cells) : ∃ x c y, cells = x ++ c :: y ∧
      (x = [] ∨ acc + cellsCost x ≤ half) ∧ half < acc + cellsCost x + cellCost c := by
  induction cells generalizing acc with
  | nil => exact (hne rfl).elim
  | cons d cells ih =>
    by_cases hd : half < acc + cellCost d
    · exact ⟨[], d, cells, rfl, Or.inl rfl, by rwa [cellsCost_nil, Nat.add_zero]⟩
    · rw [cellsCost_cons, ← Nat.add_assoc] at h
      have hne : cells ≠ [] := by
        rintro rfl
        rw [cellsCost_nil, Nat.add_zero] at h
        exact hd h
      obtain ⟨x, c, y, rfl, hx, hc⟩ := ih hne h
      refine ⟨d :: x, c, y, rfl, Or.inr ?_, ?_⟩
      · rw [cellsCost_cons]
        rcases hx with rfl | hx
        · rw [cellsCost_nil]
          omega
        · omega
      · rw [cellsCost_cons]
        omega

theorem Midpoint.splitCells {cells a b : List (Bytes × α)} {c : Bytes × α}
    (h : Midpoint cells a c b) : Node.splitCells cells = some (a, c, b) := by
  obtain ⟨rfl, hne, hle, hlt⟩ := h
  obtain ⟨d, x, rfl⟩ := List.exists_cons_of_ne_nil hne
  have hcut : Node.cutAt (d :: x ++ c :: b) = (d :: x).length := by
    rw [Node.cutAt, List.cons_append, Node.splitIdx, if_neg (by omega)]
    have hcost : 0 + cellCost d + cellsCost x = cellsCost (d :: x) := by
      rw [cellsCost_cons, Nat.zero_add]
    rw [splitIdx_eq Nat.one_pos (hle.imp ?_ ?_) ?_, List.length_cons, Nat.add_comm]
    · intro hlen
      exact List.length_eq_zero_iff.mp (Nat.succ_injective hlen)
    · intro hle
      rw [hcost]
      exact hle
    · rw [hcost]
      exact hlt
  unfold Node.splitCells
  rw [hcut, List.drop_left, List.take_left]
  refine if_pos ?_
  rw [List.length_append, List.length_cons, List.length_cons]
  omega

/-- **The cut** is the midpoint by bytes. -/
theorem splitCells_iff_midpoint {cells a b : List (Bytes × α)} {c : Bytes × α} :
    Node.splitCells cells = some (a, c, b) ↔ Midpoint cells a c b := by
  refine ⟨fun h => ?_, Midpoint.splitCells⟩
  obtain ⟨hlen, -⟩ := Node.splitCells_eq_some h
  cases cells with
  | nil => simp at hlen
  | cons d cells =>
    have hne : cells ≠ [] := by
      rintro rfl
      simp at hlen
    have hpos := cellCost_pos d
    have hhalf : cellsCost (d :: cells) / 2 < cellCost d + cellsCost cells := by
      rw [cellsCost_cons]
      omega
    obtain ⟨x, c', y, rfl, hx, hc⟩ := exists_cut hne hhalf
    have hmid : Midpoint (d :: (x ++ c' :: y)) (d :: x) c' y := by
      refine ⟨rfl, List.cons_ne_nil d x, ?_, ?_⟩
      · rw [cellsCost_cons (c := d) (l := x)]
        refine hx.imp_left ?_
        rintro rfl
        rfl
      · rwa [cellsCost_cons (c := d) (l := x)]
    rw [hmid.splitCells] at h
    cases h
    exact hmid

end Midpoint

/-! ## Room after a split -/

namespace Node

/-- The half on the side of the key. -/
def halfFor {α : Type} [CellValue α] (key sep : Bytes) (left right : Node α) : Node α :=
  if key < sep then left else right

/-- `insert` after a refused `insert_leaf_cell`: the leaf is split, and the half on the side of the
key takes it. -/
def SplitTakes (n : Node Bytes) (key value : Bytes) (id rightId parentId : PageId) : Prop :=
  ∃ left right sep, (n.insertLeafCell key value).2.splitLeaf (init parentId) id rightId =
      .ok (left, right, sep) ∧
    ((halfFor key sep left right).insertLeafCell key value).1 = true

/-- `insert_into_parent` on a full page: it is split, and the half on the side of the separator
takes it. -/
def SplitTakesSeparator (n : Node PageId) (sep : Bytes) (child parentId : PageId) : Prop :=
  ∃ left right psep, n.compact.splitInternal (init parentId) = .ok (left, right, psep) ∧
    ((halfFor sep psep left right).insertSeparator sep child).1 = true

theorem init_cells {α : Type} [CellValue α] (parentId : PageId) :
    (init parentId : Node α).cells = [] := rfl

/-- A new key is accepted where there is room. -/
theorem insertLeafCell_accepts_iff {n : Node Bytes} (hs : Sorted n.cells) {key : Bytes}
    (hkey : ∀ c ∈ n.cells, c.1 ≠ key) (value : Bytes) :
    (n.insertLeafCell key value).1 = true ↔ Room n.cells (key, value) := by
  rw [insertLeafCell_done_iff hs, others_eq hkey]

/-- **A leaf that refused a pair**: the split makes room exactly if the half on the side of the key
has it. -/
theorem splitTakes_iff {n : Node Bytes} (hs : Sorted n.cells) {key value : Bytes}
    (hrefused : (n.insertLeafCell key value).1 = false) (id rightId parentId : PageId) :
    SplitTakes n key value id rightId parentId ↔
      ∃ a c b, Midpoint (others key n.cells) a c b ∧
        Room (if key < c.1 then a else c :: b) (key, value) := by
  obtain ⟨x, y, hxy, hsxy, -, -, hyes, hno⟩ := insertLeafCell_spec hs key value
  have hroom : ¬ Room (x ++ y) (key, value) := by
    intro hroom
    obtain ⟨n', hins, -⟩ := hyes hroom
    rw [hins] at hrefused
    cases hrefused
  obtain ⟨n', hins, hcells, -, hcompact⟩ := hno hroom
  rw [← hxy] at hcells hsxy
  unfold SplitTakes
  rw [hins]
  -- what both directions need of the halves
  have hhalf : ∀ {a c b left right}, splitCells n'.cells = some (a, c, b) → left.cells = a →
      right.cells = c :: b → (((halfFor key c.1 left right).insertLeafCell key value).1 = true ↔
        Room (if key < c.1 then a else c :: b) (key, value)) := by
    intro a c b left right hsplit hl hr
    obtain ⟨-, hmid, -⟩ := splitCells_eq_some hsplit
    rw [hcells] at hmid
    have hother : ∀ e ∈ a ++ c :: b, e.1 ≠ key := by
      intro e he
      rw [← hmid] at he
      simpa using (List.mem_filter.mp he).2
    rw [hmid] at hsxy
    unfold halfFor
    split
    · rw [insertLeafCell_accepts_iff (hl ▸ (Sorted.append_iff.mp hsxy).1), hl]
      exact fun e he => hother e (List.mem_append_left _ (hl ▸ he))
    · rw [insertLeafCell_accepts_iff (hr ▸ (Sorted.append_iff.mp hsxy).2.1), hr]
      exact fun e he => hother e (List.mem_append_right _ (hr ▸ he))
  constructor
  · intro h
    obtain ⟨left, right, sep, hsplit, hins⟩ := h
    obtain ⟨a, c, b, hab⟩ := exists_splitCells (length_of_splitCheck hsplit)
    obtain ⟨_, _, hspec, hl, -, hr, -⟩ := splitLeaf_spec hcompact (hcells ▸ hsxy)
      (init_cells parentId) hab id rightId
    cases hsplit.symm.trans hspec
    refine ⟨a, c, b, splitCells_iff_midpoint.mp (hcells ▸ hab), (hhalf hab hl hr).mp hins⟩
  · intro h
    obtain ⟨a, c, b, hmid, hroom⟩ := h
    have hab : splitCells n'.cells = some (a, c, b) := hcells ▸ hmid.splitCells
    obtain ⟨left, right, hspec, hl, -, hr, -⟩ := splitLeaf_spec hcompact (hcells ▸ hsxy)
      (init_cells parentId) hab id rightId
    exact ⟨left, right, c.1, hspec, (hhalf hab hl hr).mpr hroom⟩

/-- **A full internal page**: the split makes room exactly if the half on the side of the separator
has it. -/
theorem splitTakesSeparator_iff {n : Node PageId} (hs : Sorted n.cells) (sep : Bytes)
    (child parentId : PageId) :
    SplitTakesSeparator n sep child parentId ↔
      ∃ a c b, Midpoint n.cells a c b ∧ Room (if sep < c.1 then a else b) (sep, child) := by
  have hhalf : ∀ {a b : List (Bytes × PageId)} {psep : Bytes} {left right : Node PageId},
      left.cells = a → right.cells = b →
      (((halfFor sep psep left right).insertSeparator sep child).1 = true ↔
        Room (if sep < psep then a else b) (sep, child)) := by
    intro a b psep left right hl hr
    rw [insertSeparator_accepts_iff, ← hl, ← hr]
    unfold halfFor
    split
    · exact Iff.rfl
    · exact Iff.rfl
  constructor
  · intro h
    obtain ⟨left, right, psep, hsplit, hins⟩ := h
    obtain ⟨a, c, b, hab⟩ := exists_splitCells (length_of_splitCheck hsplit)
    obtain ⟨_, _, hspec, hl, -, hr, -⟩ := splitInternal_spec n.compacted_compact hs
      (init_cells parentId) hab
    cases hsplit.symm.trans hspec
    exact ⟨a, c, b, splitCells_iff_midpoint.mp hab, (hhalf hl hr).mp hins⟩
  · intro h
    obtain ⟨a, c, b, hmid, hroom⟩ := h
    obtain ⟨left, right, hspec, hl, -, hr, -⟩ := splitInternal_spec n.compacted_compact hs
      (init_cells parentId) hmid.splitCells
    exact ⟨left, right, c.1, hspec, (hhalf hl hr).mpr hroom⟩

end Node

namespace BTree

/-- **`insert` on a whole tree** returns with the pair in the tree exactly if every page on the way
had room, if need be in the half that was chosen. -/
theorem insert_takes_iff {s₀ : Store} {m : Bytes → Option Bytes} {t : BTree Store}
    (h : AtRest s₀ m (fullView t)) (key value : Bytes) :
    (∃ t', exec (insert key value) t = (.ok (), t') ∧ (exec (get key) t').1 = .ok (some value)) ↔
      Fits key value ∧ (view t).InsertOk key value := by
  obtain ⟨lab, hs, hl⟩ := h
  constructor
  · intro htaken
    obtain ⟨t', hinsert, hget⟩ := htaken
    obtain ⟨m', -, hok, lab', hs', -⟩ := ends_insert_rests hs hl t () t' rfl hinsert
    obtain ⟨r, _, hget', hr, -⟩ := returns_get hs' key t' rfl
    rw [hget'] at hget
    refine hok ?_
    rw [← hr, Except.ok.inj hget]
    exact Option.some_ne_none value
  · intro hok
    obtain ⟨_, t', hinsert, -, lab', hs'⟩ := returns_insert hs hok.1 hok.2 t rfl
    obtain ⟨r, _, hget, hr, -⟩ := returns_get hs' key t' rfl
    refine ⟨t', hinsert, ?_⟩
    rw [hget, hr, Function.update_self]

end BTree

namespace Node

/-- **When a split makes room**: in a leaf, in an internal page, in a new root, and on the whole way
of an insertion. -/
theorem split_makes_room_iff (key value sep : Bytes) (id leftId rightId child parentId : PageId) :
    (∀ n : Node Bytes, Sorted n.cells → Fits key value →
      (n.insertLeafCell key value).1 = false →
      (SplitTakes n key value id rightId parentId ↔
        ∃ a c b, Midpoint (others key n.cells) a c b ∧
          Room (if key < c.1 then a else c :: b) (key, value))) ∧
    (∀ n : Node PageId, Sorted n.cells → n.compact.isFull (internalCellSize sep.length) = true →
      (SplitTakesSeparator n sep child parentId ↔
        ∃ a c b, Midpoint n.cells a c b ∧ Room (if sep < c.1 then a else b) (sep, child))) ∧
    ((insertSeparator { (init INVALID_PAGE_ID : Node PageId) with
          hdr := { parentId := INVALID_PAGE_ID, firstChild := leftId } } sep rightId).1 = true ↔
        sep.length ≤ 4032) ∧
    (∀ (s₀ : Store) (m : Bytes → Option Bytes) (t : BTree Store),
      BTree.AtRest s₀ m (BTree.fullView t) → Fits key value →
      ((∃ t', exec (BTree.insert key value) t = (.ok (), t') ∧
          (exec (BTree.get key) t').1 = .ok (some value)) ↔
        (BTree.view t).InsertOk key value)) := by
  refine ⟨?_, ?_, ?_, ?_⟩
  · intro n hs _ hrefused
    exact splitTakes_iff hs hrefused id rightId parentId
  · intro n hs _
    exact splitTakesSeparator_iff hs sep child parentId
  · rw [insertSeparator_accepts_iff]
    change 0 + (2 + (2 + sep.length + 4)) ≤ 4040 ↔ _
    omega
  · intro s₀ m t h hfits
    rw [BTree.insert_takes_iff h]
    exact and_iff_right hfits

/-- Two long values, and a longer one between them. -/
def unevenLeaf : Node Bytes :=
  (((init INVALID_PAGE_ID : Node Bytes).insertLeafCell [1] (List.replicate 2000 0)).2.insertLeafCell
    [3] (List.replicate 1900 0)).2

/-- The value between them fits into neither half; the left one is chosen, and refuses it. -/
theorem not_splitTakes_unevenLeaf :
    ¬ ∀ (n : Node Bytes) (key value : Bytes) (id rightId parentId : PageId), Sorted n.cells →
      Fits key value → (n.insertLeafCell key value).1 = false →
      SplitTakes n key value id rightId parentId := by
  intro h
  obtain ⟨left, right, sep, hsplit, hins⟩ := h unevenLeaf [2] (List.replicate 2100 0) 1 2 0
    (by decide +kernel) (by decide +kernel) (by decide +kernel)
  have hcheck : ((unevenLeaf.insertLeafCell [2] (List.replicate 2100 0)).2.splitLeaf
      (init 0) 1 2).toOption.map (fun r => ((halfFor [2] r.2.2 r.1 r.2.1).insertLeafCell [2]
        (List.replicate 2100 0)).1) = some false := by decide +kernel
  rw [hsplit] at hcheck
  cases hins.symm.trans (Option.some.inj hcheck)

/-- A root with two long separators. -/
def fullRoot : Node PageId :=
  (((init INVALID_PAGE_ID : Node PageId).insertSeparator (3 :: List.replicate 1899 0) 2).2
    |>.insertSeparator (5 :: List.replicate 1899 0) 4).2

/-- Where the key goes to the right half there is room for it; so there is in a full root, and in a
new tree. -/
theorem split_makes_room_unevenLeaf :
    SplitTakes unevenLeaf [4] (List.replicate 2100 0) 1 2 0 ∧
    SplitTakesSeparator fullRoot (7 :: List.replicate 1899 0) 6 0 ∧
    ∃ t', exec (BTree.insert [1] [2]) (exec BTree.create { store := Store.init }).2 = (.ok (), t') ∧
      (exec (BTree.get [1]) t').1 = .ok (some [2]) := by
  refine ⟨?_, ?_, ?_⟩
  · refine ((split_makes_room_iff [4] (List.replicate 2100 0) [] 1 0 2 0 0).1 unevenLeaf
      (by decide +kernel) (by decide +kernel) (by decide +kernel)).mpr
      ⟨[([1], List.replicate 2000 0)], ([3], List.replicate 1900 0), [],
        splitCells_iff_midpoint.mp (by decide +kernel), by decide +kernel⟩
  · refine ((split_makes_room_iff [] [] (7 :: List.replicate 1899 0) 0 0 0 6 0).2.1 fullRoot
      (by decide +kernel) (by decide +kernel)).mpr
      ⟨[(3 :: List.replicate 1899 0, 2)], (5 :: List.replicate 1899 0, 4), [],
        splitCells_iff_midpoint.mp (by decide +kernel), by decide +kernel⟩
  · obtain ⟨m, lab, hs, hl, -⟩ := BTree.rooted_create BTree.poolOk_init
      (exec_eq_of_isOk (x := BTree.create) (s := { store := Store.init }) (by decide +kernel))
    exact ((split_makes_room_iff [1] [2] [] 0 0 0 0 0).2.2.2 Store.init m _ ⟨lab, hs, hl⟩
      (by decide)).mpr (by decide +kernel)

end Node

end KeyVDB
