import KeyVDB.BTree.Remove
import KeyVDB.BTree.Rotation
import KeyVDB.BTree.Structure
import KeyVDB.Lib.Run

/-!
# One level of the repair

`fix_underflow` on one level: the siblings of the page are looked up in the parent, one of them lends
a cell, or two pages are merged. `fixSiblings` is the code between the root case and the recursion,
and `fixUnderflow_cons` says so. What it leaves is said for every call that returns, whatever slot it
works on.
-/

namespace KeyVDB

namespace BTree

/-! ## The code of one level -/

section Code

variable {σ Ptr : Type} [PageStore σ Ptr]

/-- How a level was repaired: the two pages from left to right, and after a merge the parent and the
root. -/
inductive Repaired
  | borrowed (left right : PageId)
  | merged (left right : PageId) (parent : Node PageId) (root : PageId)
  | alone

/-- The merge of two pages, up to the question whether the parent underflows. -/
def mergeSiblings (parentPage : Ptr) (parentId leftId rightId : PageId) (sepSlot : Nat) :
    BTreeM σ (Node PageId × PageId) := do
  let leftPage ← fetch leftId "lp && rp"
  let rightPage ← fetch rightId "lp && rp"
  let parent ← internalNode parentPage
  let sep ← ofExcept (parent.keyAt sepSlot)
  mergeFrom leftPage rightPage sep
  relinkRight leftPage leftId
  let parent := (← internalNode parentPage).removeCell sepSlot
  writeData parentPage (.internal parent)
  unpin leftId true
  unpin rightId true
  onStore (PageStore.deletePage rightId)
  let rootId := (← getThe (BTree σ)).rootPageId
  unpin parentId true
  return (parent, rootId)

/-- What `fix_underflow` does to the page, its siblings and its parent. -/
def fixSiblings (pageId parentId : PageId) : BTreeM σ Repaired := do
  let parentPage ← fetch parentId "parent_page != nullptr"
  let parent ← internalNode parentPage
  let pos ← ofExcept (position parent pageId)
  if ← borrow stealFromLeft parentPage parentId pageId pos.leftSib pos.sepSlot "lp != nullptr" then
    return .borrowed pos.leftSib pageId
  if ← borrow stealFromRight parentPage parentId pageId pos.rightSib pos.sepSlot "rp != nullptr" then
    return .borrowed pageId pos.rightSib
  if pos.rightSib ≠ INVALID_PAGE_ID then
    let (parent, root) ← mergeSiblings parentPage parentId pageId pos.rightSib pos.sepSlot
    return .merged pageId pos.rightSib parent root
  else if pos.leftSib ≠ INVALID_PAGE_ID then
    let sepSlot := leftMergeSlot parent pos.leftSib pageId
    let (parent, root) ← mergeSiblings parentPage parentId pos.leftSib pageId sepSlot
    return .merged pos.leftSib pageId parent root
  else
    unpin parentId false
    return .alone

/-- What `fix_underflow` does after it: the parent is repaired, or an empty root goes. -/
def fixAbove (parentId : PageId) (breadcrumbs : List PageId) : Repaired → BTreeM σ Unit
  | .merged left _ parent root =>
    if parent.underflow ∧ parentId ≠ root then fixUnderflow parentId breadcrumbs
    else if parent.numKeys = 0 ∧ parentId = root then collapseInto left parentId "np != nullptr"
    else pure ()
  | _ => pure ()

theorem mergePages_bind (parentPage : Ptr) (parentId leftId rightId : PageId) (sepSlot : Nat)
    (breadcrumbs : List PageId) :
    (do
      if ← mergePages parentPage parentId leftId rightId sepSlot then
        fixUnderflow parentId breadcrumbs) = (do
      let (parent, root) ← mergeSiblings parentPage parentId leftId rightId sepSlot
      fixAbove (σ := σ) parentId breadcrumbs (.merged leftId rightId parent root)) := by
  simp only [mergePages, mergeSiblings, bind_assoc, pure_bind, fixAbove]
  repeat refine bind_congr fun _ => ?_
  split
  · rw [pure_bind, if_pos rfl]
  split
  · simp only [bind_assoc, pure_bind, if_neg Bool.false_ne_true, bind_pure_unit]
  · rw [pure_bind, if_neg Bool.false_ne_true]

/-- **One level and what is above it.** -/
theorem fixUnderflow_cons (pageId parentId : PageId) (breadcrumbs : List PageId) :
    fixUnderflow (σ := σ) pageId (parentId :: breadcrumbs) =
      fixSiblings pageId parentId >>= fixAbove parentId breadcrumbs := by
  simp only [fixUnderflow, fixSiblings, bind_assoc]
  refine bind_congr fun parentPage => bind_congr fun parent => bind_congr fun pos => ?_
  refine bind_congr fun left => ?_
  split
  · rfl
  simp only [bind_assoc]
  refine bind_congr fun right => ?_
  split
  · rfl
  split
  · rw [mergePages_bind, bind_assoc]
    rfl
  split
  · rw [mergePages_bind, bind_assoc]
    rfl
  · rw [bind_assoc]
    exact (bind_pure_unit (x := unpin parentId false)).symm

/-- `remove` up to the call of `fix_underflow`: whether the key was there, and the arguments of the
call. -/
def removeFromLeaf (key : Bytes) : BTreeM σ (Bool × Option (PageId × List PageId)) := do
  let (leafPage, breadcrumbs) ← findLeaf key
  let leafId := (← readPage leafPage).pageId
  let leaf ← leafNode leafPage
  let slot := lowerBound leaf.cells key
  if (leaf.cells[slot]?).any fun c => c.1 = key then
    let leaf := leaf.removeCell slot
    writeData leafPage (.leaf leaf)
    let rootId := (← getThe (BTree σ)).rootPageId
    unpin leafId true
    if leaf.underflow ∧ leafId ≠ rootId then return (true, some (leafId, breadcrumbs))
    else return (true, none)
  else
    unpin leafId false
    return (false, none)

theorem remove_eq (key : Bytes) :
    remove (σ := σ) key = (do
      let (found, call) ← removeFromLeaf key
      match call with
      | some (pageId, breadcrumbs) => fixUnderflow pageId breadcrumbs
      | none => pure ()
      return found) := by
  simp only [remove, removeFromLeaf, bind_assoc]
  refine bind_congr fun found => bind_congr fun page => bind_congr fun leaf => ?_
  split
  · simp only [bind_assoc]
    refine bind_congr fun _ => bind_congr fun t => bind_congr fun _ => ?_
    split
    · rw [pure_bind]
    · rw [pure_bind]
  · rw [bind_assoc]
    refine bind_congr fun _ => ?_
    rw [pure_bind]

end Code

end BTree

/-! ## What a steal did -/

namespace Node

/-- A cell that was accepted beyond the last key is the last one. -/
theorem insertLeafCell_append {n n' : Node Bytes} {c : Bytes × Bytes}
    (hs : Sorted (n.cells ++ [c])) (h : n.insertLeafCell c.1 c.2 = (true, n')) :
    Room n.cells c ∧ n'.cells = n.cells ++ [c] ∧ n'.hdr = n.hdr := by
  obtain ⟨hn, -, hlt⟩ := Sorted.append_iff.mp hs
  by_cases hroom : Room n.cells c
  · obtain ⟨n₁, hins, hcells, hhdr⟩ := appends_insertLeafCell n c hs hroom
    rw [hins] at h
    cases h
    exact ⟨hroom, hcells, hhdr⟩
  · obtain ⟨a, b, hab, -, -, -, -, hno⟩ := insertLeafCell_spec hn c.1 c.2
    rw [others_eq fun x hx => (hlt x hx c List.mem_cons_self).ne] at hab
    obtain ⟨n₁, hins, -⟩ := hno (hab ▸ hroom)
    rw [hins] at h
    cases h

theorem stealFromLeftLeaf_eq {n n' left left' : Node Bytes} {k : Bytes}
    (hs : Sorted (left.cells ++ n.cells)) (h : n.stealFromLeftLeaf left = .ok (n', left', k)) :
    ∃ a v, left.cells = a ++ [(k, v)] ∧ Room n.cells (k, v) ∧ left'.cells = a ∧
      left'.hdr = left.hdr ∧ n'.cells = (k, v) :: n.cells ∧ n'.hdr = n.hdr := by
  obtain ⟨-, hn, hlt⟩ := Sorted.append_iff.mp hs
  rcases List.eq_nil_or_concat left.cells with hnil | ⟨a, ⟨k', v⟩, hcells⟩
  · simp only [stealFromLeftLeaf, hnil, List.getLast?_nil] at h
    cases h
  rw [List.concat_eq_append] at hcells
  have hlt : ∀ c ∈ n.cells, k' < c.1 := hlt (k', v) (by rw [hcells]; simp)
  by_cases hroom : Room n.cells (k', v)
  · obtain ⟨n₁, left₁, hsteal, hcells', hhdr, ha, hlhdr⟩ := stealFromLeftLeaf_spec hcells hn hlt hroom
    rw [hsteal] at h
    cases h
    exact ⟨a, v, hcells, hroom, ha, hlhdr, hcells', hhdr⟩
  · obtain ⟨x, y, hxy, -, -, -, -, hno⟩ := insertLeafCell_spec hn k' v
    rw [others_eq fun c hc => (hlt c hc).ne'] at hxy
    obtain ⟨n₁, hins, -⟩ := hno (hxy ▸ hroom)
    simp only [stealFromLeftLeaf, hcells, List.getLast?_concat, hins] at h
    cases h

theorem stealFromRightLeaf_eq {n n' right right' : Node Bytes} {k : Bytes}
    (hs : Sorted (n.cells ++ right.cells)) (h : n.stealFromRightLeaf right = .ok (n', right', k)) :
    ∃ c d b, right.cells = c :: d :: b ∧ d.1 = k ∧ Room n.cells c ∧ right'.cells = d :: b ∧
      right'.hdr = right.hdr ∧ n'.cells = n.cells ++ [c] ∧ n'.hdr = n.hdr := by
  unfold stealFromRightLeaf at h
  obtain ⟨k₀, hk, h⟩ := except_bind_eq_ok.mp h
  obtain ⟨v, hv, h⟩ := except_bind_eq_ok.mp h
  cases hcells : right.cells with
  | nil =>
    rw [keyAt, hcells] at hk
    cases hk
  | cons c b =>
    have hkey : right.keyAt 0 = .ok c.1 := keyAt_middle (a := []) hcells
    have hval : right.valueAt 0 = .ok c.2 := valueAt_middle (a := []) hcells
    cases hk.symm.trans hkey
    cases hv.symm.trans hval
    split at h
    · next n₁ hins =>
      obtain ⟨e, he, h⟩ := except_bind_eq_ok.mp h
      cases h
      rw [hcells, List.append_cons] at hs
      obtain ⟨hroom, hcells', hhdr⟩ := insertLeafCell_append (Sorted.append_iff.mp hs).1 hins
      have hrest : (right.removeCell 0).cells = b := by rw [removeCell_cells, hcells]; rfl
      cases b with
      | nil =>
        rw [keyAt, hrest] at he
        cases he
      | cons d b =>
        have hkey' : (right.removeCell 0).keyAt 0 = .ok d.1 := keyAt_middle (a := []) hrest
        cases he.symm.trans hkey'
        exact ⟨c, d, b, rfl, rfl, hroom, hrest, rfl, hcells', hhdr⟩
    · cases h

/-- Cells that were copied beyond the last key are appended. -/
theorem copyCells_eq {α : Type} [CellValue α] {insert : Node α → Bytes → α → Bool × Node α}
    (happ : ∀ {n n' : Node α} {c : Bytes × α}, Sorted (n.cells ++ [c]) →
      insert n c.1 c.2 = (true, n') → n'.cells = n.cells ++ [c] ∧ n'.hdr = n.hdr)
    {room : String} {n n' : Node α} {cells : List (Bytes × α)} (hs : Sorted (n.cells ++ cells))
    (h : copyCells insert room n cells = .ok n') :
    n'.cells = n.cells ++ cells ∧ n'.hdr = n.hdr := by
  induction cells generalizing n with
  | nil =>
    cases h
    exact ⟨(List.append_nil _).symm, rfl⟩
  | cons c cells ih =>
    rw [List.append_cons] at hs
    unfold copyCells at h
    split at h
    · next n₁ hins =>
      obtain ⟨hcells, hhdr⟩ := happ (Sorted.append_iff.mp hs).1 hins
      obtain ⟨hcells', hhdr'⟩ := ih (hcells ▸ hs) h
      exact ⟨by rw [hcells', hcells, ← List.append_cons], hhdr'.trans hhdr⟩
    · cases h

theorem mergeLeaf_eq {n n' r : Node Bytes} (hs : Sorted (n.cells ++ r.cells))
    (h : n.mergeLeaf r = .ok n') :
    n'.cells = n.cells ++ r.cells ∧ n'.hdr = { n.hdr with rightSibling := r.hdr.rightSibling } := by
  obtain ⟨n₁, hcopy, h⟩ := except_bind_eq_ok.mp h
  cases h
  obtain ⟨hcells, hhdr⟩ := copyCells_eq (fun hs h => (insertLeafCell_append hs h).2) hs hcopy
  exact ⟨hcells, by rw [hhdr]⟩

theorem insertSeparator_append {n n' : Node PageId} {c : Bytes × PageId}
    (hs : Sorted (n.cells ++ [c])) (h : n.insertSeparator c.1 c.2 = (true, n')) :
    n'.cells = n.cells ++ [c] ∧ n'.hdr = n.hdr := by
  obtain ⟨-, -, hlt⟩ := Sorted.append_iff.mp hs
  exact (insertSeparator_true (b := []) (List.append_nil _).symm
    (fun x hx => hlt x hx c List.mem_cons_self) nofun h).2

theorem mergeInternal_eq {n n' r : Node PageId} {sep : Bytes}
    (hs : Sorted (n.cells ++ (sep, r.hdr.firstChild) :: r.cells))
    (h : n.mergeInternal r sep = .ok n') :
    n'.cells = n.cells ++ (sep, r.hdr.firstChild) :: r.cells ∧ n'.hdr = n.hdr := by
  rw [List.append_cons] at hs ⊢
  unfold mergeInternal at h
  split at h
  · next n₁ hins =>
    obtain ⟨hcells, hhdr⟩ := insertSeparator_append (c := (sep, r.hdr.firstChild))
      (Sorted.append_iff.mp hs).1 hins
    rw [← hcells] at hs ⊢
    obtain ⟨hcells', hhdr'⟩ := copyCells_eq insertSeparator_append hs h
    exact ⟨hcells', hhdr'.trans hhdr⟩
  · cases h

end Node

namespace BTree

/-! ## Borrowing, when it returns -/

section Borrow

variable {F : FullHeap} {par cur sib : PageId}

theorem ends_reparent (parentId : PageId) {child : PageId} (h : F.heap.Live child) :
    Ends fullView (reparent parentId child) F fun _ F' => F'.heap = F.heap := by
  rw [reparent, updateHdrIfAny, if_neg h.ne_invalid]
  exact (ends_setParent parentId _ h.isSome).last rfl

theorem ends_stealFromLeft_leaf {Nc Nl : Node Bytes} (hne : cur ≠ sib)
    (hc : F.heap.node cur = some (.leaf Nc)) (hl : F.heap.node sib = some (.leaf Nl))
    (hs : Sorted (Nl.cells ++ Nc.cells)) :
    Ends fullView (stealFromLeft cur sib) F fun k F' => ∃ a v nl nc, Nl.cells = a ++ [(k, v)] ∧
      Room Nc.cells (k, v) ∧ F'.heap = (F.heap.put sib (.leaf nl)).put cur (.leaf nc) ∧
      nl.cells = a ∧ nc.cells = (k, v) :: Nc.cells := by
  refine (ends_node hc).bind ?_
  rintro (n | n) _ ⟨hbare, -, -, rfl⟩
  swap
  · cases hbare
  cases hbare
  refine (ends_node hl).bind ?_
  rintro (left | left) _ ⟨hbare, -, -, rfl⟩
  swap
  · cases hbare
  cases hbare
  refine Ends.ofExcept.bind ?_
  rintro ⟨n', left', k⟩ _ ⟨hsteal, rfl⟩
  have hs : Sorted (left.cells ++ n.cells) := hs
  obtain ⟨a, v, hleft, hroom, hleft', -, hn', -⟩ := Node.stealFromLeftLeaf_eq hs hsteal
  refine (ends_writeData (.leaf left') (by rw [hl]; rfl)).seq ?_
  refine (ends_writeData (.leaf n') (by simp [hne, hc])).seq ?_
  exact .pure ⟨a, v, left'.bare, n'.bare, hleft, hroom, rfl, hleft', hn'⟩

theorem ends_stealFromRight_leaf {Nc Nr : Node Bytes} (hne : cur ≠ sib)
    (hc : F.heap.node cur = some (.leaf Nc)) (hr : F.heap.node sib = some (.leaf Nr))
    (hs : Sorted (Nc.cells ++ Nr.cells)) :
    Ends fullView (stealFromRight cur sib) F fun k F' => ∃ c d b nr nc, Nr.cells = c :: d :: b ∧
      d.1 = k ∧ Room Nc.cells c ∧ F'.heap = (F.heap.put sib (.leaf nr)).put cur (.leaf nc) ∧
      nr.cells = d :: b ∧ nc.cells = Nc.cells ++ [c] := by
  refine (ends_node hc).bind ?_
  rintro (n | n) _ ⟨hbare, -, -, rfl⟩
  swap
  · cases hbare
  cases hbare
  refine (ends_node hr).bind ?_
  rintro (right | right) _ ⟨hbare, -, -, rfl⟩
  swap
  · cases hbare
  cases hbare
  refine Ends.ofExcept.bind ?_
  rintro ⟨n', right', k⟩ _ ⟨hsteal, rfl⟩
  have hs : Sorted (n.cells ++ right.cells) := hs
  obtain ⟨c, d, b, hright, hk, hroom, hright', -, hn', -⟩ := Node.stealFromRightLeaf_eq hs hsteal
  refine (ends_writeData (.leaf right') (by rw [hr]; rfl)).seq ?_
  refine (ends_writeData (.leaf n') (by simp [hne, hc])).seq ?_
  exact .pure ⟨c, d, b, right'.bare, n'.bare, hright, hk, hroom, rfl, hright', hn'⟩

theorem ends_stealFromLeft_internal {Nc Nl : Node PageId} (hne : cur ≠ sib)
    (hc : F.heap.node cur = some (.internal Nc)) (hl : F.heap.node sib = some (.internal Nl))
    (hlive : ∀ c ∈ Nl.cells, F.heap.Live c.2) :
    Ends fullView (stealFromLeft cur sib) F fun k F' => ∃ a c nl nc, Nl.cells = a ++ [(k, c)] ∧
      F'.heap = (F.heap.put sib (.internal nl)).put cur (.internal nc) ∧ nl.cells = a ∧
      nl.hdr.firstChild = Nl.hdr.firstChild ∧ nc.cells = (k, Nc.hdr.firstChild) :: Nc.cells ∧
      nc.hdr.firstChild = c := by
  refine (ends_node hc).bind ?_
  rintro (n | n) _ ⟨hbare, -, -, rfl⟩
  · cases hbare
  cases hbare
  refine (ends_node hl).bind ?_
  rintro (left | left) _ ⟨hbare, -, -, rfl⟩
  · cases hbare
  cases hbare
  refine Ends.ofExcept.bind ?_
  rintro ⟨n', left', k, c⟩ _ ⟨hsteal, rfl⟩
  obtain ⟨a, hleft, hleft', hhdr, hn', hfirst⟩ := Node.stealFromLeftInternal_eq hsteal
  have hc' : F.heap.Live c := hlive (k, c) (by rw [Node.bare_cells, hleft]; simp)
  refine (ends_writeData (.internal left') (by rw [hl]; rfl)).seq ?_
  refine (ends_writeData (.internal n') (by simp [hne, hc])).seq ?_
  refine (ends_readPage (by simp)).bind ?_
  rintro page _ ⟨-, rfl⟩
  refine (ends_reparent _ ((hc'.put _ _).put _ _)).bind ?_
  intro _ F' hheap
  refine .pure ⟨a, c, left'.bare, n'.bare, hleft, hheap, hleft', ?_, hn', hfirst⟩
  rw [Node.bare_firstChild, hhdr, Node.bare_firstChild]

theorem ends_stealFromRight_internal {Nc Nr : Node PageId} (hne : cur ≠ sib)
    (hc : F.heap.node cur = some (.internal Nc)) (hr : F.heap.node sib = some (.internal Nr))
    (hlive : F.heap.Live Nr.hdr.firstChild) (hlt : ∀ c ∈ Nc.cells, ∀ d ∈ Nr.cells, c.1 < d.1) :
    Ends fullView (stealFromRight cur sib) F fun k F' => ∃ c b nr nc, Nr.cells = (k, c) :: b ∧
      F'.heap = (F.heap.put sib (.internal nr)).put cur (.internal nc) ∧ nr.cells = b ∧
      nr.hdr.firstChild = c ∧ nc.cells = Nc.cells ++ [(k, Nr.hdr.firstChild)] ∧
      nc.hdr.firstChild = Nc.hdr.firstChild := by
  refine (ends_node hc).bind ?_
  rintro (n | n) _ ⟨hbare, -, -, rfl⟩
  · cases hbare
  cases hbare
  refine (ends_node hr).bind ?_
  rintro (right | right) _ ⟨hbare, -, -, rfl⟩
  · cases hbare
  cases hbare
  refine Ends.ofExcept.bind ?_
  rintro ⟨n', right', k, child⟩ _ ⟨hsteal, rfl⟩
  obtain ⟨c, b, hright, hright', hfirst, hn', hhdr, rfl⟩ := Node.stealFromRightInternal_eq hsteal
  refine (ends_writeData (.internal right') (by rw [hr]; rfl)).seq ?_
  refine (ends_writeData (.internal n') (by simp [hne, hc])).seq ?_
  refine (ends_readPage (by simp)).bind ?_
  rintro page _ ⟨-, rfl⟩
  refine (ends_reparent _ ((hlive.put _ _).put _ _)).bind ?_
  intro _ F' hheap
  refine .pure ⟨c, b, right'.bare, n'.bare, hright, hheap, hright', hfirst, ?_, ?_⟩
  · -- the stolen key is beyond the last one
    have hcut : Cut n.cells [] k :=
      ⟨fun x hx => hlt x hx (k, c) (by rw [Node.bare_cells, hright]; exact List.mem_cons_self), nofun⟩
    have hslot := hcut.lowerBound
    rw [List.append_nil] at hslot
    rw [Node.bare_cells, hn', hslot, List.insertIdx_length_self]
    rfl
  · rw [Node.bare_firstChild, hhdr, Node.bare_firstChild]

/-- A sibling that is not there or underflows itself lends nothing. -/
theorem ends_borrow_skip (steal : PageId → PageId → BTreeM Store Bytes) (slot : Nat) (cond : String)
    (h : sib = INVALID_PAGE_ID ∨ ∃ n, F.heap.node sib = some n ∧ n.underflow = true) :
    Ends fullView (borrow steal par par cur sib slot cond) F fun r F' => false = r ∧ F' = F := by
  by_cases hsib : sib = INVALID_PAGE_ID
  · rw [borrow, if_pos hsib]
    exact .pure ⟨rfl, rfl⟩
  · obtain ⟨n, hn, hunder⟩ := h.resolve_left hsib
    rw [borrow, if_neg hsib]
    refine (ends_fetch cond).seqVal ?_
    refine (ends_node (N := n) (by exact hn)).bind ?_
    rintro n' _ ⟨rfl, -, -, rfl⟩
    rw [AnyNode.bare_underflow] at hunder
    rw [if_pos hunder]
    refine (ends_unpin false).seq ?_
    exact .pure ⟨rfl, FullHeap.ext (Heap.unpin_pin _ _) rfl rfl rfl⟩

/-- A sibling that can lend, given what the steal leaves. -/
theorem ends_borrow {steal : PageId → PageId → BTreeM Store Bytes} {slot : Nat} {n : AnyNode}
    {N : Node PageId} {P : Bytes → FullHeap → Prop} (cond : String) (hsib : sib ≠ INVALID_PAGE_ID)
    (hn : F.heap.node sib = some n) (hlend : n.underflow = false)
    (hsteal : Ends fullView (steal cur sib) ((F.pin sib).pin cur) P)
    (hpar : ∀ k F', P k F' → F'.heap.node par = some (.internal N)) :
    Ends fullView (borrow steal par par cur sib slot cond) F fun r F' =>
      true = r ∧ ∃ k F₁ parent n', P k F₁ ∧ parent.bare = N ∧
        replaceSeparator parent slot k = .ok n' ∧
        F'.heap.node = (F₁.heap.put par (.internal n'.bare)).node := by
  rw [borrow, if_neg hsib]
  refine (ends_fetch cond).seqVal ?_
  refine (ends_node (N := n) (by exact hn)).bind ?_
  rintro n _ ⟨rfl, -, -, rfl⟩
  rw [AnyNode.bare_underflow] at hlend
  rw [if_neg (by rw [hlend]; exact Bool.false_ne_true)]
  refine (ends_fetch _).seqVal ?_
  refine hsteal.bind ?_
  intro k F₁ hP
  have hnode := hpar k F₁ hP
  refine (ends_internalNode hnode).bind ?_
  rintro parent _ ⟨hbare, -, -, rfl⟩
  refine Ends.ofExcept.bind ?_
  rintro n' _ ⟨hreplace, rfl⟩
  refine (ends_writeData (.internal n') (by rw [hnode]; rfl)).seq ?_
  refine (ends_unpin true).seq ?_
  refine (ends_unpin true).seq ?_
  refine (ends_unpin true).seq ?_
  exact .pure ⟨rfl, k, F₁, parent, n', hP, hbare, hreplace, rfl⟩

end Borrow

/-! ## Merging, when it returns -/

section Merge

variable {F : FullHeap} {par x y : PageId} {sep : Bytes}

theorem ends_mergeFrom_leaf {Nx Ny : Node Bytes} (sep : Bytes) (hx : F.heap.node x = some (.leaf Nx))
    (hy : F.heap.node y = some (.leaf Ny)) (hs : Sorted (Nx.cells ++ Ny.cells)) :
    Ends fullView (mergeFrom x y sep) F fun _ F' => ∃ n : Node Bytes, F' = F.rewrite x (.leaf n) ∧
      n.cells = Nx.cells ++ Ny.cells ∧ n.hdr.rightSibling = Ny.hdr.rightSibling := by
  refine (ends_node hx).bind ?_
  rintro (l | l) _ ⟨hbare, hparent, hleft, rfl⟩
  swap
  · cases hbare
  cases hbare
  refine (ends_node hy).bind ?_
  rintro (r | r) _ ⟨hbare, -, -, rfl⟩
  swap
  · cases hbare
  cases hbare
  refine Ends.ofExcept.bind ?_
  rintro n _ ⟨hmerge, rfl⟩
  have hs : Sorted (l.cells ++ r.cells) := hs
  obtain ⟨hcells, hhdr⟩ := Node.mergeLeaf_eq hs hmerge
  refine (ends_rewriteLeaf n (by rw [hx]; rfl) (by rw [hhdr]; exact hparent)
    (by rw [hhdr]; exact hleft)).last ?_
  exact ⟨n.bare, rfl, hcells, by rw [Node.bare_rightSibling, hhdr, Node.bare_rightSibling]⟩

/-- The children of `y` get the parent `x`; the separator is pulled down if it is the right one. -/
theorem ends_mergeFrom_internal {Nx Ny : Node PageId} (sep : Bytes)
    (hx : F.heap.node x = some (.internal Nx)) (hy : F.heap.node y = some (.internal Ny))
    (hlive : ∀ c ∈ Ny.children, F.heap.Live c) :
    Ends fullView (mergeFrom x y sep) F fun _ F' => ∃ n, F'.heap = F.heap.put x (.internal n) ∧
      (Sorted (Nx.cells ++ (sep, Ny.hdr.firstChild) :: Ny.cells) →
        n.cells = Nx.cells ++ (sep, Ny.hdr.firstChild) :: Ny.cells ∧
        n.hdr.firstChild = Nx.hdr.firstChild ∧ F'.left = F.left ∧
        F'.parent = fun z => if z ∈ Ny.children then x else F.parent z) := by
  refine (ends_node hx).bind ?_
  rintro (l | l) _ ⟨hbare, hparent, hleft, rfl⟩
  · cases hbare
  cases hbare
  refine (ends_node hy).bind ?_
  rintro (r | r) _ ⟨hbare, -, -, rfl⟩
  · cases hbare
  cases hbare
  refine Ends.ofExcept.bind ?_
  rintro n _ ⟨hmerge, rfl⟩
  refine (ends_writeData (.internal n) (by rw [hx]; rfl)).seq ?_
  refine (ends_readPage (by simp)).bind ?_
  rintro ⟨id, data⟩ _ ⟨rfl, rfl⟩
  refine (ends_reparentAll _ _ fun c hc => ?_).last ?_
  · refine (hlive c ?_).put _ _
    rcases List.mem_append.mp hc with hc | hc
    · exact hc
    · rw [List.mem_singleton.mp hc]
      exact List.mem_cons_self
  refine ⟨n.bare, rfl, fun hs => ?_⟩
  have hs : Sorted (l.cells ++ (sep, r.hdr.firstChild) :: r.cells) := hs
  obtain ⟨hcells, hhdr⟩ := Node.mergeInternal_eq hs hmerge
  have hput : F.put x (.internal n) = F.rewrite x (.internal n.bare) :=
    FullHeap.put_eq_rewrite (by rw [AnyNode.hdr, hhdr]; exact hparent)
      (by rw [AnyNode.hdr, hhdr]; exact hleft)
  refine ⟨hcells, by rw [Node.bare_firstChild, hhdr, Node.bare_firstChild], by rw [hput]; rfl, ?_⟩
  -- the first child of `y` is there twice
  have hmem : ∀ z, z ∈ r.hdr.firstChild :: r.cells.map Prod.snd ++ [r.hdr.firstChild] ↔
      z ∈ r.bare.children := by
    intro z
    rw [Node.children, Node.bare_firstChild, Node.bare_cells, List.mem_append, List.mem_singleton]
    exact or_iff_left_of_imp fun h => h ▸ List.mem_cons_self
  rw [hput]
  funext z
  exact if_congr (hmem z) rfl rfl

/-- The heap after `relink_right` of the merged page. -/
def relinked (F : FullHeap) (x : PageId) : AnyNode → FullHeap
  | .leaf n => F.setLeftIfAny n.hdr.rightSibling x
  | .internal _ => F

@[simp] theorem relinked_heap (F : FullHeap) (x : PageId) (n : AnyNode) :
    (relinked F x n).heap = F.heap := by
  cases n with
  | leaf n => exact FullHeap.setLeftIfAny_heap F x
  | internal n => rfl

theorem relinked_pin (F : FullHeap) (x p : PageId) (n : AnyNode) :
    relinked (F.pin p) x n = (relinked F x n).pin p := by
  cases n with
  | leaf n =>
    simp only [relinked, FullHeap.setLeftIfAny]
    split <;> rfl
  | internal n => rfl

theorem ends_relinkRight {n : AnyNode} (hx : F.heap.node x = some n) (hn : Relinks F.heap n) :
    Ends fullView (relinkRight x x) F fun _ F' => F' = relinked F x n := by
  refine (ends_node hx).bind ?_
  rintro (n | n) _ ⟨rfl, -, -, rfl⟩
  · exact ends_setLeft x _ fun hinv => (hn.resolve_left hinv).isSome
  · exact .pure rfl

/-- The merge of two pages, given what `merge_from` leaves. -/
theorem ends_mergeSiblings {N : Node PageId} {u b : List (Bytes × PageId)} {child : PageId}
    {P : FullHeap → AnyNode → Prop} (hy : 0 < y) (hne : par ≠ x)
    (hN : F.heap.node par = some (.internal N)) (hcells : N.cells = u ++ (sep, child) :: b)
    (hmerge : Ends fullView (mergeFrom x y sep) (((F.pin par).pin x).pin y) fun _ F' =>
      ∃ F₁ n, F' = ((F₁.pin par).pin x).pin y ∧ F₁.heap = F.heap.put x n ∧ P F₁ n)
    (hrelink : ∀ F₁ n, P F₁ n → Relinks (F.heap.put x n) n) :
    Ends fullView (mergeSiblings par par x y u.length) (F.pin par) fun _ F' =>
      ∃ F₁ n, P F₁ n ∧ F' = ((relinked F₁ x n).rewrite par (.internal (N.removeCell u.length))).release y ∧
        F'.heap = mergedHeap F.heap par x y n (N.removeCell u.length) := by
  refine (ends_fetch _).seqVal ?_
  refine (ends_fetch _).seqVal ?_
  refine (ends_internalNode (N := N) (by exact hN)).bind ?_
  rintro parent _ ⟨rfl, -, -, rfl⟩
  have hcells : parent.cells = u ++ (sep, child) :: b := hcells
  refine Ends.ofExcept.bind ?_
  rintro sep' _ ⟨hsep, rfl⟩
  cases hsep.symm.trans (Node.keyAt_middle hcells)
  refine hmerge.bind ?_
  rintro _ _ ⟨F₁, n, rfl, hheap, hP⟩
  have hx : F₁.heap.node x = some n := by rw [hheap, Heap.put_node_self]
  have hlinks := ((hrelink F₁ n hP).pin par).pin x |>.pin y
  rw [← hheap] at hlinks
  refine (ends_relinkRight (by exact hx) hlinks).seq ?_
  rw [relinked_pin, relinked_pin, relinked_pin]
  have hpar : (relinked F₁ x n).heap.node par = some (.internal parent.bare) := by
    rw [relinked_heap, hheap, Heap.put_node_of_ne _ _ hne, hN]
  refine (ends_internalNode (N := parent.bare) (by exact hpar)).bind ?_
  rintro parent' _ ⟨hbare, hparent, hleft, rfl⟩
  have hsome : ((relinked F₁ x n).heap.node par).isSome := by rw [hpar]; rfl
  refine (ends_rewriteInternal (parent'.removeCell u.length) (by exact hsome) hparent hleft).seq ?_
  rw [Node.bare_removeCell, hbare]
  refine (ends_unpin true).seq ?_
  refine (ends_unpin true).seq ?_
  refine (ends_deletePage hy).seq ?_
  refine .get_bind ?_
  intro t ht
  refine (ends_unpin true).seq ?_
  refine .pure ⟨F₁, n, hP, ?_, ?_⟩
  · refine FullHeap.ext ?_ rfl rfl rfl
    simp
  · simp [mergedHeap, hheap]

end Merge

/-! ## The call -/

section Call

variable {s₀ : Store} {F : FullHeap} {lab : Labels} {m : Bytes → Option Bytes} {key : Bytes}

/-- What is known where `fix_underflow` is called: `p` is an underflowing leaf other than the root,
and `path` leads to it. -/
structure Called (H : Heap) (lab : Labels) (key : Bytes) (p : PageId) (path : List PageId) : Prop where
  found : Found lab key path.length p path
  root : lab H.root = some ⟨path.length, [], ⊤⟩
  leaf : ∃ N, H.node p = some (.leaf N) ∧ N.underflow = true
  ne_root : p ≠ H.root

/-- **Up to the call of `fix_underflow`** the tree keeps its shape and its links. -/
theorem ends_removeFromLeaf (h : Shape F.heap lab lab m) (hl : Links s₀ F lab) :
    Ends fullView (removeFromLeaf key) F fun r F' =>
      (∃ m', Shape F'.heap lab lab m') ∧ Links s₀ F' lab ∧ F'.heap.pins = F.heap.pins ∧
        ∀ call ∈ r.2, Called F'.heap lab key call.1 call.2 := by
  refine (ends_findLeaf h key).bind ?_
  rintro ⟨p, path⟩ _ ⟨rfl, hfind, j, hroot, ⟨L, hp, hL, hkey⟩, hlen, habove⟩
  dsimp only at hp hlen habove ⊢
  obtain ⟨N, hN⟩ := (h.page hp).leaf hL
  have hlive := h.isLive hp
  refine (ends_readPage (p := p) (by exact hlive.isSome)).bind ?_
  rintro ⟨id, data⟩ _ ⟨rfl, rfl⟩
  refine (ends_leafNode (N := N) (by exact hN.node)).bind ?_
  rintro n _ ⟨rfl, hparent, hleft, rfl⟩
  dsimp only
  split
  · next hany =>
    obtain ⟨a, b, hab, hcut⟩ := hN.sorted.cut key
    rw [Node.bare_cells] at hab
    rw [hab, hcut.lowerBound, List.getElem?_append_right le_rfl, Nat.sub_self] at hany
    rw [hab, hcut.lowerBound]
    obtain ⟨v, b, rfl⟩ : ∃ v b', b = (key, v) :: b' := by
      cases b with
      | nil => cases hany
      | cons c b => exact ⟨c.2, b, by rw [← of_decide_eq_true hany]⟩
    have hshape := shape_removeCell h hp hL hkey hN hab
    refine (ends_rewriteLeaf (n.removeCell a.length) (by exact hlive.isSome) hparent hleft).seq ?_
    refine .get_bind ?_
    intro t ht
    have hroot' : t.rootPageId = F.heap.root := congrArg (fun F => F.heap.root) ht
    rw [hroot']
    refine (ends_unpin true).seq ?_
    have hstate : ((F.pin p).rewrite p (.leaf (n.removeCell a.length).bare)).unpin p =
        F.rewrite p (.leaf (n.bare.removeCell a.length)) := by
      ext1 <;> simp
    rw [hstate]
    have hlinks := hl.rewriteLeaf (p := p) (n.bare.removeCell a.length)
    split
    · next hunder =>
      refine .pure ⟨⟨_, hshape⟩, hlinks, rfl, ?_⟩
      rintro _ ⟨⟩
      refine ⟨⟨⟨L, hp, hL, hkey⟩, rfl, habove⟩, ?_, ?_, hunder.2⟩
      · exact hlen ▸ hroot
      · exact ⟨_, Heap.put_node_self .., hunder.1⟩
    · exact .pure ⟨⟨_, hshape⟩, hlinks, rfl, nofun⟩
  · refine (ends_unpin false).seq ?_
    have hstate : (F.pin p).unpin p = F := FullHeap.ext (Heap.unpin_pin _ _) rfl rfl rfl
    rw [hstate]
    exact .pure ⟨⟨m, h⟩, hl, rfl, nofun⟩

/-! ## Runs without a call -/

/-- The operations that change the tree. -/
inductive TreeOp
  | insert (key value : Bytes)
  | remove (key : Bytes)

/-- An operation that returns without a call of `fix_underflow`. -/
def calmStep (t : BTree Store) : TreeOp → Option (BTree Store)
  | .insert key value =>
    match exec (insert key value) t with
    | (.ok _, t') => some t'
    | (.error _, _) => none
  | .remove key =>
    match exec (removeFromLeaf key) t with
    | (.ok (_, none), t') => some t'
    | _ => none

/-- The tree where `fix_underflow` is called in the removal of a key, and the arguments of the
call. -/
def callStep (t : BTree Store) (key : Bytes) : Option (BTree Store × PageId × List PageId) :=
  match exec (removeFromLeaf key) t with
  | (.ok (_, some (pageId, breadcrumbs)), t') => some (t', pageId, breadcrumbs)
  | _ => none

theorem calmStep_remove {t t' : BTree Store} (h : calmStep t (.remove key) = some t') :
    ∃ found, exec (removeFromLeaf key) t = (.ok (found, none), t') := by
  unfold calmStep at h
  dsimp only at h
  split at h
  · next hexec =>
    cases h
    exact ⟨_, hexec⟩
  · cases h

theorem callStep_eq_some {t t' : BTree Store} {p : PageId} {path : List PageId}
    (h : callStep t key = some (t', p, path)) :
    ∃ found, exec (removeFromLeaf key) t = (.ok (found, some (p, path)), t') := by
  unfold callStep at h
  split at h
  · next hexec =>
    cases h
    exact ⟨_, hexec⟩
  · cases h

/-- Such a removal is a removal. -/
theorem exec_remove_of_calmStep {t t' : BTree Store} (h : calmStep t (.remove key) = some t') :
    ∃ found, exec (remove key) t = (.ok found, t') := by
  obtain ⟨found, hexec⟩ := calmStep_remove h
  rw [remove_eq, exec_bind_ok hexec]
  exact ⟨found, rfl⟩

/-- After the call the removal goes on with `fix_underflow`. -/
theorem exec_remove_of_callStep {t t' : BTree Store} {p : PageId} {path : List PageId}
    (h : callStep t key = some (t', p, path)) :
    ∃ found, exec (remove key) t = exec (do fixUnderflow p path; return found) t' := by
  obtain ⟨found, hexec⟩ := callStep_eq_some h
  rw [remove_eq, exec_bind_ok hexec]
  exact ⟨found, rfl⟩

/-- The tree is at rest, for some map. -/
def Resting (s₀ : Store) (t : BTree Store) : Prop := ∃ m, AtRest s₀ m (fullView t)

theorem Resting.calmStep {t t' : BTree Store} {op : TreeOp} (h : Resting s₀ t)
    (hstep : calmStep t op = some t') : Resting s₀ t' := by
  obtain ⟨m, lab, hs, hl⟩ := h
  cases op with
  | insert key value =>
    unfold BTree.calmStep at hstep
    dsimp only at hstep
    split at hstep
    · next hexec =>
      cases hstep
      obtain ⟨m', -, hrest⟩ := ends_insert hs hl t _ t' rfl hexec
      exact ⟨m', hrest⟩
    · cases hstep
  | remove key =>
    obtain ⟨found, hexec⟩ := calmStep_remove hstep
    obtain ⟨⟨m', hs'⟩, hl', -⟩ := ends_removeFromLeaf hs hl t _ t' rfl hexec
    exact ⟨m', lab, hs', hl'⟩

/-- **Runs without a call of `fix_underflow`** from a new tree. -/
theorem resting_of_run {t₀ t : BTree Store} {ops : List TreeOp}
    (hpool : (view { store := s₀ }).PoolOk) (hcreate : exec create { store := s₀ } = (.ok (), t₀))
    (hrun : run calmStep t₀ ops = some t) : Resting s₀ t := by
  have h₀ : Resting s₀ t₀ := by
    have hrests := ends_create (F := fullView { store := s₀ }) hpool rfl rfl _ () t₀ rfl hcreate
    exact ⟨_, hrests.atRest⟩
  exact run_inv (C := fun _ _ => True) (fun _ _ _ hs _ hstep => hs.calmStep hstep) h₀
    (steps_of_forall (fun _ _ => trivial) t₀ ops) hrun

end Call

end BTree

end KeyVDB
