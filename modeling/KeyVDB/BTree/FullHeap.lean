import KeyVDB.BTree.Insert
import Mathlib.Tactic.Simps.Basic

/-!
# The heap with its back links

The parent and left sibling ids, which the search never follows, and the root slot of page 0.
`FullHeap` adds them to the heap; for each call of the tree's interface to the pool there is a
rule for `Ends fullView`, which asks nothing of the pages it fetches.
-/

namespace KeyVDB

def AnyNode.hdr : AnyNode → NodeHeader
  | .leaf n => n.hdr
  | .internal n => n.hdr

/-- The heap, what each page has as its parent and as its left sibling, and the root slot. -/
@[ext]
structure FullHeap where
  heap : Heap
  parent : PageId → PageId
  left : PageId → PageId
  slot : PageId

namespace FullHeap

@[simps -fullyApplied] def pin (F : FullHeap) (p : PageId) : FullHeap :=
  { F with heap := F.heap.pin p }

@[simps -fullyApplied] def unpin (F : FullHeap) (p : PageId) : FullHeap :=
  { F with heap := F.heap.unpin p }

/-- A node is written that keeps its parent and its left sibling. -/
@[simps -fullyApplied] def rewrite (F : FullHeap) (p : PageId) (n : AnyNode) : FullHeap :=
  { F with heap := F.heap.put p n }

@[simps -fullyApplied] def setParent (F : FullHeap) (p parentId : PageId) : FullHeap :=
  { F with parent := Function.update F.parent p parentId }

@[simps -fullyApplied] def setLeft (F : FullHeap) (p leftSibling : PageId) : FullHeap :=
  { F with left := Function.update F.left p leftSibling }

/-- A node is written with all of its header. -/
@[simps -fullyApplied] def put (F : FullHeap) (p : PageId) (n : AnyNode) : FullHeap where
  heap := F.heap.put p n.bare
  parent := Function.update F.parent p n.hdr.parentId
  left := Function.update F.left p n.hdr.leftSibling
  slot := F.slot

/-- After `new_page`, apart from the pin. -/
@[simps -fullyApplied] def alloc (F : FullHeap) : FullHeap where
  heap := F.heap.alloc
  parent := Function.update F.parent F.heap.next INVALID_PAGE_ID
  left := Function.update F.left F.heap.next INVALID_PAGE_ID
  slot := F.slot

/-- After `delete_page`. -/
@[simps -fullyApplied] def release (F : FullHeap) (p : PageId) : FullHeap where
  heap := F.heap.release p
  parent := Function.update F.parent p INVALID_PAGE_ID
  left := Function.update F.left p INVALID_PAGE_ID
  slot := F.slot

@[simps -fullyApplied] def setRoot (F : FullHeap) (p : PageId) : FullHeap :=
  { F with heap := F.heap.setRoot p, slot := p }

/-- The page may be `INVALID_PAGE_ID`. -/
def setLeftIfAny (F : FullHeap) (p leftSibling : PageId) : FullHeap :=
  if p = INVALID_PAGE_ID then F else F.setLeft p leftSibling

section SetLeftIfAny

variable (F : FullHeap) {p x : PageId} (leftSibling : PageId)

@[simp] theorem setLeftIfAny_heap : (F.setLeftIfAny p leftSibling).heap = F.heap := by
  unfold setLeftIfAny
  split <;> rfl

@[simp] theorem setLeftIfAny_parent : (F.setLeftIfAny p leftSibling).parent = F.parent := by
  unfold setLeftIfAny
  split <;> rfl

@[simp] theorem setLeftIfAny_slot : (F.setLeftIfAny p leftSibling).slot = F.slot := by
  unfold setLeftIfAny
  split <;> rfl

@[simp] theorem setLeftIfAny_left_self (h : p ≠ INVALID_PAGE_ID) :
    (F.setLeftIfAny p leftSibling).left p = leftSibling := by
  rw [setLeftIfAny, if_neg h, setLeft_left, Function.update_self]

@[simp] theorem setLeftIfAny_left_of_ne (h : x ≠ p) :
    (F.setLeftIfAny p leftSibling).left x = F.left x := by
  unfold setLeftIfAny
  split
  · rfl
  · rw [setLeft_left, Function.update_of_ne h]

end SetLeftIfAny

theorem rewrite_eq_self {F : FullHeap} {p : PageId} {n : AnyNode} (h : F.heap.node p = some n) :
    F.rewrite p n = F := by
  rw [rewrite, Heap.put_eq_self h]

theorem put_eq_rewrite {F : FullHeap} {p : PageId} {n : AnyNode}
    (hparent : n.hdr.parentId = F.parent p) (hleft : n.hdr.leftSibling = F.left p) :
    F.put p n = F.rewrite p n.bare := by
  rw [put, hparent, hleft, Function.update_eq_self, Function.update_eq_self, rewrite]

end FullHeap

/-- The header of a page, where it is a node. -/
def Page.hdr (page : Page Content) : NodeHeader :=
  match page.data with
  | .leaf n => n.hdr
  | .internal n => n.hdr
  | _ => { parentId := INVALID_PAGE_ID }

theorem Page.hdr_mk (p : PageId) (n : AnyNode) :
    Page.hdr { pageId := p, data := n.content } = n.hdr := by
  cases n <;> rfl

namespace BTree

/-- The heap of a tree with the back links. -/
def fullView (t : BTree Store) : FullHeap where
  heap := view t
  parent p := (t.store.pages p).hdr.parentId
  left p := (t.store.pages p).hdr.leftSibling
  slot := t.store.rootId

/-! ## Rules for the calls of the pool -/

section Rules

variable {F : FullHeap} {p : PageId}

theorem ends_fetch (cond : String) :
    Ends fullView (fetch p cond) F fun a F' => p = a ∧ F' = F.pin p := by
  rintro t a t' rfl h
  have hfetch : exec (PageStore.fetchPage p) t.store = exec (Store.fetchPage p) t.store := rfl
  rw [fetch, exec_bind, onStore, exec_onPart, hfetch] at h
  by_cases hrange : p < 0 ∨ (t.store.numPages : Int) ≤ p
  · simp only [Store.fetchPage, exec_get_bind, if_pos hrange, exec_throw] at h
    cases h
  · simp only [Store.fetchPage, exec_get_bind, if_neg hrange, exec_set_bind, exec_pure] at h
    cases h
    exact ⟨rfl, rfl⟩

theorem ends_unpin (dirty : Bool) : Ends fullView (unpin p dirty) F fun _ F' => F' = F.unpin p := by
  rintro t _ _ rfl ⟨⟩
  rfl

theorem ends_readPage (h : (F.heap.node p).isSome) :
    Ends fullView (readPage p) F fun page F' => p = page.pageId ∧ F = F' := by
  rintro t page _ rfl ⟨⟩
  obtain ⟨N, hN⟩ := Option.isSome_iff_exists.mp h
  obtain ⟨n, hpage, -⟩ := node_content hN
  exact ⟨congrArg Page.pageId hpage.symm, rfl⟩

/-- What is read is the node in the heap, with its back links. -/
theorem ends_node {N : AnyNode} (h : F.heap.node p = some N) :
    Ends fullView (node p) F fun n F' =>
      n.bare = N ∧ n.hdr.parentId = F.parent p ∧ n.hdr.leftSibling = F.left p ∧ F = F' := by
  rintro t a t' rfl he
  obtain ⟨n, hpage, hbare⟩ := node_content h
  have hread : exec (readPage p) t = (.ok (t.store.pages p), t) := rfl
  have hnode : exec (node p) t = (.ok n, t) := by
    rw [node, exec_bind_ok hread, hpage]
    cases n <;> rfl
  rw [hnode] at he
  cases he
  have hhdr : (t.store.pages p).hdr = a.hdr := by rw [hpage, Page.hdr_mk]
  exact ⟨hbare, congrArg NodeHeader.parentId hhdr.symm, congrArg NodeHeader.leftSibling hhdr.symm,
    rfl⟩

theorem ends_leafNode {N : Node Bytes} (h : F.heap.node p = some (.leaf N)) :
    Ends fullView (leafNode p) F fun n F' =>
      n.bare = N ∧ n.hdr.parentId = F.parent p ∧ n.hdr.leftSibling = F.left p ∧ F = F' := by
  refine (ends_node h).bind ?_
  rintro (n | n) _ ⟨hbare, hparent, hleft, rfl⟩
  · exact .pure ⟨AnyNode.leaf.inj hbare, hparent, hleft, rfl⟩
  · cases hbare

theorem ends_internalNode {N : Node PageId} (h : F.heap.node p = some (.internal N)) :
    Ends fullView (internalNode p) F fun n F' =>
      n.bare = N ∧ n.hdr.parentId = F.parent p ∧ n.hdr.leftSibling = F.left p ∧ F = F' := by
  refine (ends_node h).bind ?_
  rintro (n | n) _ ⟨hbare, hparent, hleft, rfl⟩
  · cases hbare
  · exact .pure ⟨AnyNode.internal.inj hbare, hparent, hleft, rfl⟩

/-- A changed page changes one header. -/
theorem hdr_update {α : Type} (f : NodeHeader → α) (pages : PageId → Page Content)
    (page : Page Content) :
    (fun q => f (Function.update pages p page q).hdr) =
      Function.update (fun q => f (pages q).hdr) p (f page.hdr) := by
  funext q
  by_cases h : q = p
  · subst h
    rw [Function.update_self, Function.update_self]
  · rw [Function.update_of_ne h, Function.update_of_ne h]

theorem ends_writePage (n : AnyNode) :
    Ends fullView (writePage p { pageId := p, data := n.content }) F fun _ F' => F' = F.put p n := by
  refine .modify ?_
  rintro t rfl
  have hnode := node_update (p := p) t.store.pages { pageId := p, data := n.content }
  have hparent := hdr_update NodeHeader.parentId (p := p) t.store.pages
    { pageId := p, data := n.content }
  have hleft := hdr_update NodeHeader.leftSibling (p := p) t.store.pages
    { pageId := p, data := n.content }
  rw [Page.node_mk] at hnode
  rw [Page.hdr_mk] at hparent hleft
  exact FullHeap.ext (congrArg (fun f => { view t with node := f }) hnode) hparent hleft rfl

theorem ends_writeData (n : AnyNode) (h : (F.heap.node p).isSome) :
    Ends fullView (writeData p n.content) F fun _ F' => F' = F.put p n := by
  refine (ends_readPage h).bind ?_
  rintro ⟨id, data⟩ _ ⟨rfl, rfl⟩
  exact ends_writePage n

/-- A node is written that keeps its parent and its left sibling. -/
theorem ends_rewriteLeaf (n : Node Bytes) (h : (F.heap.node p).isSome)
    (hparent : n.hdr.parentId = F.parent p) (hleft : n.hdr.leftSibling = F.left p) :
    Ends fullView (writeData p (.leaf n)) F fun _ F' => F' = F.rewrite p (.leaf n.bare) := by
  refine (ends_writeData (.leaf n) h).last ?_
  exact FullHeap.put_eq_rewrite hparent hleft

theorem ends_rewriteInternal (n : Node PageId) (h : (F.heap.node p).isSome)
    (hparent : n.hdr.parentId = F.parent p) (hleft : n.hdr.leftSibling = F.left p) :
    Ends fullView (writeData p (.internal n)) F fun _ F' =>
      F' = F.rewrite p (.internal n.bare) := by
  refine (ends_writeData (.internal n) h).last ?_
  exact FullHeap.put_eq_rewrite hparent hleft

theorem ends_setFirstChild {N : Node PageId} (h : F.heap.node p = some (.internal N))
    (child : PageId) :
    Ends fullView (setHdr p fun h => { h with firstChild := child }) F fun _ F' =>
      F' = F.rewrite p (.internal { N with hdr := { N.hdr with firstChild := child } }) := by
  refine (ends_node h).bind ?_
  rintro (n | n) _ ⟨hbare, hparent, hleft, rfl⟩
  · cases hbare
  · cases hbare
    exact ends_rewriteInternal _ (by rw [h]; rfl) hparent hleft

theorem ends_newPage :
    Ends fullView (onStore PageStore.newPage) F fun r F' =>
      some (F.heap.next, F.heap.next) = r ∧ F' = F.alloc.pin F.heap.next := by
  rintro t _ _ rfl ⟨⟩
  refine ⟨rfl, ?_⟩
  have hnode := node_update (p := (view t).next) t.store.pages
    { pageId := (view t).next, data := Content.zero }
  have hparent := hdr_update NodeHeader.parentId (p := (view t).next) t.store.pages
    { pageId := (view t).next, data := Content.zero }
  have hleft := hdr_update NodeHeader.leftSibling (p := (view t).next) t.store.pages
    { pageId := (view t).next, data := Content.zero }
  rw [Page.node, if_pos rfl] at hnode
  exact FullHeap.ext
    (congrArg (fun f => { (view t).alloc.pin (view t).next with node := f }) hnode) hparent hleft rfl

theorem ends_deletePage (hp : 0 < p) :
    Ends fullView (onStore (PageStore.deletePage p)) F fun _ F' => F' = F.release p := by
  rintro t a t' rfl h
  have hdel : exec (PageStore.deletePage p) t.store = exec (Store.deletePage p) t.store := rfl
  rw [onStore, exec_onPart, hdel] at h
  by_cases hpin : p ∈ t.store.pins
  · simp only [Store.deletePage, exec_get_bind, if_pos hpin, exec_throw] at h
    cases h
  by_cases hfree : MAX_FREE_PAGES ≤ t.store.freePages.length
  · simp only [Store.deletePage, exec_get_bind, if_neg hpin, if_pos hfree, exec_throw] at h
    cases h
  simp only [Store.deletePage, exec_get_bind, if_neg hpin, if_neg hfree, exec_set] at h
  cases h
  have hnode := node_update (p := p) t.store.pages Page.clear
  have hparent := hdr_update NodeHeader.parentId (p := p) t.store.pages Page.clear
  have hleft := hdr_update NodeHeader.leftSibling (p := p) t.store.pages Page.clear
  rw [Page.node, if_neg (show (Page.clear : Page Content).pageId ≠ p from hp.ne)] at hnode
  exact FullHeap.ext (congrArg (fun f => { (view t).release p with node := f }) hnode) hparent hleft
    rfl

theorem ends_setRoot : Ends fullView (setRoot p) F fun _ F' => F' = F.setRoot p := by
  rintro t a t' rfl h
  have hset : exec (PageStore.setRootPageId p) t.store =
    exec (Store.setRootPageId p) t.store := rfl
  simp only [setRoot, persistRoot, exec_modify_bind, exec_get_bind, onStore, exec_onPart, hset] at h
  by_cases hnum : t.store.numPages = 0
  · simp only [Store.setRootPageId, exec_get_bind, if_pos hnum, exec_throw] at h
    cases h
  · simp only [Store.setRootPageId, exec_get_bind, if_neg hnum, exec_set] at h
    cases h
    rfl

/-! ## Back links -/

theorem ends_setHdr {f : NodeHeader → NodeHeader} (hf : ∀ h, (f h).bare = h.bare) {N : AnyNode}
    (h : F.heap.node p = some N) : Ends fullView (setHdr p f) F fun _ F' =>
      ∃ hdr, hdr.parentId = F.parent p ∧ hdr.leftSibling = F.left p ∧
        F' = (F.setParent p (f hdr).parentId).setLeft p (f hdr).leftSibling := by
  refine (ends_node h).bind ?_
  rintro n _ ⟨hbare, hparent, hleft, rfl⟩
  refine (ends_writeData _ (by rw [h]; rfl)).last ?_
  refine ⟨n.hdr, hparent, hleft, ?_⟩
  have hmap : (n.mapHdr f).bare = N := by
    rw [← hbare]
    cases n with
    | leaf n => simp only [AnyNode.mapHdr, AnyNode.bare, Node.bare, hf]
    | internal n => simp only [AnyNode.mapHdr, AnyNode.bare, Node.bare, hf]
  have hhdr : (n.mapHdr f).hdr = f n.hdr := by cases n <;> rfl
  rw [FullHeap.put, hmap, Heap.put_eq_self h, hhdr]
  rfl

theorem ends_setParent (parentId : PageId) (cond : String) (h : (F.heap.node p).isSome) :
    Ends fullView (updateHdr p cond fun h => { h with parentId }) F fun _ F' =>
      F' = F.setParent p parentId := by
  obtain ⟨N, hN⟩ := Option.isSome_iff_exists.mp h
  refine (ends_fetch cond).seqVal ?_
  refine (ends_setHdr (F := F.pin p) (f := fun h => { h with parentId }) (fun _ => rfl) hN).bind ?_
  rintro _ _ ⟨hdr, -, hleft, rfl⟩
  refine (ends_unpin true).last ?_
  dsimp only at hleft ⊢
  rw [hleft]
  simp [FullHeap.unpin, FullHeap.setLeft, FullHeap.setParent]

theorem ends_setLeft (leftSibling : PageId) (cond : String)
    (h : p ≠ INVALID_PAGE_ID → (F.heap.node p).isSome) :
    Ends fullView (updateHdrIfAny p cond fun h => { h with leftSibling }) F fun _ F' =>
      F' = F.setLeftIfAny p leftSibling := by
  unfold updateHdrIfAny FullHeap.setLeftIfAny
  split
  · exact .pure rfl
  · next hp =>
    obtain ⟨N, hN⟩ := Option.isSome_iff_exists.mp (h hp)
    refine (ends_fetch cond).seqVal ?_
    refine (ends_setHdr (F := F.pin p) (f := fun h => { h with leftSibling }) (fun _ => rfl)
      hN).bind ?_
    rintro _ _ ⟨hdr, hparent, -, rfl⟩
    refine (ends_unpin true).last ?_
    dsimp only at hparent ⊢
    rw [hparent]
    simp [FullHeap.unpin, FullHeap.setLeft, FullHeap.setParent]

/-- The children that get a new parent. -/
theorem ends_reparentAll (parentId : PageId) (children : List PageId)
    (h : ∀ c ∈ children, F.heap.Live c) :
    Ends fullView (reparentAll parentId children) F fun _ F' =>
      F' = { F with parent := fun x => if x ∈ children then parentId else F.parent x } := by
  induction children generalizing F with
  | nil => exact .pure (by simp)
  | cons c children ih =>
    have hc := h c List.mem_cons_self
    have hset := ends_setParent (F := F) parentId "cp != nullptr" hc.isSome
    rw [reparentAll, reparent, updateHdrIfAny, if_neg hc.ne_invalid]
    refine hset.seq ?_
    refine (ih (F := F.setParent c parentId) fun c' hc' => h c' (List.mem_cons_of_mem c hc')).last ?_
    rw [FullHeap.setParent]
    congr 1
    funext x
    by_cases hx : x ∈ children
    · simp [hx]
    · by_cases hxc : x = c
      · simp [hxc]
      · simp [hx, hxc]

end Rules

end BTree

end KeyVDB
