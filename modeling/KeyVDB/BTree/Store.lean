import KeyVDB.BTree.Cells
import Mathlib.Data.Multiset.AddSub
import Mathlib.Logic.Function.Basic

/-!
# The tree over pages that are always available

`Store` is the buffer pool and the free list as the tree sees them when there is a frame for every
page and the file does not fail: what a `Page*` points to is the page itself, until it is deleted.
The assertions on pins, on the free list and on page ids are there. `Heap` is what the search
depends on: the parent and left sibling ids, which the tree maintains and never follows, are left
out. For each call of the tree's interface to the pool there is a rule for `Returns view`.
-/

namespace KeyVDB

/-- The pool and the free list, with a frame for every page. -/
structure Store where
  pages : PageId → Page Content
  numPages : Nat
  freePages : List PageId := []
  pins : Multiset PageId := 0  -- a page once for each pin
  rootId : PageId := INVALID_PAGE_ID

/-- The page that `new_page` takes and the number of pages after it. -/
def nextPage (freePages : List PageId) (numPages : Nat) : PageId × Nat :=
  match freePages.getLast? with
  | some id => if id = INVALID_PAGE_ID then (numPages, numPages + 1) else (id, numPages)
  | none => (numPages, numPages + 1)

namespace Store

/-- A new file: page 0 only. -/
def init : Store :=
  { pages := fun _ => { pageId := 0, data := .header PageData.dbHeader }, numPages := 1 }

def fetchPage (id : PageId) : CallM Exn Store (Option PageId) := do
  let s ← get
  if id < 0 ∨ (s.numPages : Int) ≤ id then
    throw (.outOfRange ("DiskManager::read_page: page_id " ++ toString id ++
      " is out of range [0, " ++ toString s.numPages ++ ")"))
  else
    set { s with pins := id ::ₘ s.pins }
    return some id

def newPage : CallM Exn Store (Option (PageId × PageId)) := do
  let s ← get
  let (id, numPages) := nextPage s.freePages s.numPages
  set { s with
    pages := Function.update s.pages id { Page.clear with pageId := id }
    numPages
    freePages := s.freePages.dropLast
    pins := id ::ₘ s.pins }
  return some (id, id)

def deletePage (id : PageId) : CallM Exn Store Unit := do
  let s ← get
  if id ∈ s.pins then throw (.assertion "f.pin_count == 0")
  else if MAX_FREE_PAGES ≤ s.freePages.length then
    throw (.assertion "free_pages_.size() < MAX_FREE_PAGES")
  else
    set { s with
      pages := Function.update s.pages id Page.clear
      freePages := s.freePages ++ [id] }

def setRootPageId (id : PageId) : CallM Exn Store Unit := do
  let s ← get
  if s.numPages = 0 then throw (.assertion "dm_.num_pages() > 0")
  else set { s with rootId := id }

end Store

instance : PageStore Store PageId where
  fetchPage := Store.fetchPage
  newPage := Store.newPage
  unpinPage id _ := modify fun s => { s with pins := s.pins.erase id }
  deletePage := Store.deletePage
  setRootPageId := Store.setRootPageId
  numPages := Store.numPages
  page s p := s.pages p
  setPage s p page := { s with pages := Function.update s.pages p page }

/-! ## What the search depends on -/

/-- The ids that are not followed are dropped. -/
def NodeHeader.bare (h : NodeHeader) : NodeHeader :=
  { h with parentId := INVALID_PAGE_ID, leftSibling := INVALID_PAGE_ID }

def Node.bare {α : Type} [CellValue α] (n : Node α) : Node α := { n with hdr := n.hdr.bare }

section Bare

variable {α : Type} [CellValue α]

@[simp] theorem Node.bare_cells (n : Node α) : n.bare.cells = n.cells := rfl

@[simp] theorem Node.bare_rightSibling (n : Node α) :
    n.bare.hdr.rightSibling = n.hdr.rightSibling := rfl

@[simp] theorem Node.bare_firstChild (n : Node α) :
    n.bare.hdr.firstChild = n.hdr.firstChild := rfl

@[simp] theorem Node.bare_underflow (n : Node α) : n.bare.underflow = n.underflow := rfl

@[simp] theorem Node.bare_removeCell (n : Node α) (slot : Nat) :
    (n.removeCell slot).bare = n.bare.removeCell slot := rfl

end Bare

def AnyNode.bare : AnyNode → AnyNode
  | .leaf n => .leaf n.bare
  | .internal n => .internal n.bare

/-- The pages and what is known of them between two calls of the pool. -/
structure Heap where
  node : PageId → Option AnyNode
  numPages : Nat
  freePages : List PageId
  pins : Multiset PageId
  root : PageId

namespace Heap

def put (H : Heap) (p : PageId) (n : AnyNode) : Heap :=
  { H with node := Function.update H.node p (some n) }

def pin (H : Heap) (p : PageId) : Heap := { H with pins := p ::ₘ H.pins }

def unpin (H : Heap) (p : PageId) : Heap := { H with pins := H.pins.erase p }

/-- The page that `new_page` takes. -/
def next (H : Heap) : PageId := (nextPage H.freePages H.numPages).1

/-- After `new_page`, apart from the pin. -/
def alloc (H : Heap) : Heap :=
  { H with
    node := Function.update H.node H.next none
    numPages := (nextPage H.freePages H.numPages).2
    freePages := H.freePages.dropLast }

/-- After `delete_page`. -/
def release (H : Heap) (p : PageId) : Heap :=
  { H with node := Function.update H.node p none, freePages := H.freePages ++ [p] }

def setRoot (H : Heap) (p : PageId) : Heap := { H with root := p }

/-- The page can be fetched and is a node. -/
structure Live (H : Heap) (p : PageId) : Prop where
  pos : 0 < p
  lt : p < H.numPages
  isSome : (H.node p).isSome

section Lemmas

variable (H : Heap) (p q : PageId) (n : AnyNode)

@[simp] theorem pin_node : (H.pin p).node = H.node := rfl

@[simp] theorem pin_numPages : (H.pin p).numPages = H.numPages := rfl

@[simp] theorem pin_freePages : (H.pin p).freePages = H.freePages := rfl

@[simp] theorem pin_root : (H.pin p).root = H.root := rfl

@[simp] theorem pin_next : (H.pin p).next = H.next := rfl

@[simp] theorem put_node_self : (H.put p n).node p = some n := Function.update_self ..

@[simp] theorem put_node_of_ne {p q : PageId} (h : q ≠ p) : (H.put p n).node q = H.node q :=
  Function.update_of_ne h ..

@[simp] theorem put_numPages : (H.put p n).numPages = H.numPages := rfl

@[simp] theorem put_freePages : (H.put p n).freePages = H.freePages := rfl

@[simp] theorem put_root : (H.put p n).root = H.root := rfl

@[simp] theorem put_pins : (H.put p n).pins = H.pins := rfl

@[simp] theorem put_next : (H.put p n).next = H.next := rfl

@[simp] theorem release_node_of_ne {p q : PageId} (h : q ≠ p) :
    (H.release p).node q = H.node q :=
  Function.update_of_ne h ..

theorem put_eq_self {H : Heap} {p : PageId} {n : AnyNode} (h : H.node p = some n) :
    H.put p n = H := by
  rw [put, ← h, Function.update_eq_self]

@[simp] theorem put_put (n' : AnyNode) : (H.put p n).put p n' = H.put p n' := by
  rw [put, put, put, Function.update_idem]

theorem put_put_put {p q : PageId} (h : p ≠ q) (n' n'' : AnyNode) :
    ((H.put q n).put p n').put q n'' = (H.put p n').put q n'' := by
  simp only [put, Function.update_comm h, Function.update_idem]

theorem alloc_put {p : PageId} (h : p ≠ H.next) : (H.put p n).alloc = H.alloc.put p n := by
  have hcomm := Function.update_comm h (some n) none H.node
  exact congrArg (fun f => { H.alloc with node := f }) hcomm

/-! Pins go outwards. -/

@[simp] theorem put_pin : (H.pin p).put q n = (H.put q n).pin p := rfl

@[simp] theorem alloc_pin : (H.pin p).alloc = H.alloc.pin p := rfl

@[simp] theorem release_pin : (H.pin p).release q = (H.release q).pin p := rfl

@[simp] theorem setRoot_pin : (H.pin p).setRoot q = (H.setRoot q).pin p := rfl

@[simp] theorem unpin_pin : (H.pin p).unpin p = H := by
  rw [unpin, pin]
  simp only [Multiset.erase_cons_head]

@[simp] theorem unpin_pin_pin : ((H.pin p).pin q).unpin p = H.pin q := by
  rw [unpin, pin, pin, pin]
  simp only [Multiset.cons_swap q p, Multiset.erase_cons_head]

end Lemmas

namespace Live

variable {H : Heap} {p q : PageId}

theorem ne_invalid (h : H.Live p) : p ≠ INVALID_PAGE_ID := by
  rintro rfl
  exact absurd h.pos (by decide)

theorem pin (h : H.Live p) (q : PageId) : (H.pin q).Live p := ⟨h.pos, h.lt, h.isSome⟩

theorem put (h : H.Live p) (q : PageId) (n : AnyNode) : (H.put q n).Live p := by
  refine ⟨h.pos, h.lt, ?_⟩
  by_cases e : p = q
  · subst e
    rw [put_node_self]
    rfl
  · rw [put_node_of_ne _ _ e]
    exact h.isSome

theorem alloc (h : H.Live p) (hne : p ≠ H.next) (hnum : H.numPages ≤ H.alloc.numPages) :
    H.alloc.Live p := by
  refine ⟨h.pos, lt_of_lt_of_le h.lt (by exact_mod_cast hnum), ?_⟩
  have hnode : H.alloc.node p = H.node p := Function.update_of_ne hne ..
  rw [hnode]
  exact h.isSome

end Live

end Heap

/-- The node in a page, if it is one and the id in its header is right. -/
def Page.node (page : Page Content) (p : PageId) : Option AnyNode :=
  if page.pageId = p then
    match page.data with
    | .leaf n => some (.leaf n.bare)
    | .internal n => some (.internal n.bare)
    | _ => none
  else none

namespace BTree

/-- The heap of a tree. -/
def view (t : BTree Store) : Heap where
  node p := (t.store.pages p).node p
  numPages := t.store.numPages
  freePages := t.store.freePages
  pins := t.store.pins
  root := t.rootPageId

/-! ## Rules for the calls of the pool -/

section Rules

variable {H : Heap} {p : PageId}

theorem returns_fetch (cond : String) (hlo : 0 < p) (hhi : p < H.numPages) :
    Returns view (fetch p cond) H fun a H' => p = a ∧ H' = H.pin p := by
  rintro t rfl
  have hrange : ¬ (p < 0 ∨ (t.store.numPages : Int) ≤ p) :=
    not_or.mpr ⟨not_lt.mpr hlo.le, not_le.mpr hhi⟩
  have hpage : exec (PageStore.fetchPage p) t.store =
      (.ok (some p), { t.store with pins := p ::ₘ t.store.pins }) := by
    change exec (Store.fetchPage p) t.store = _
    simp only [Store.fetchPage, exec_get_bind, if_neg hrange, exec_set_bind, exec_pure]
  refine ⟨p, { t with store := { t.store with pins := p ::ₘ t.store.pins } }, ?_, rfl, rfl⟩
  rw [fetch, exec_bind, onStore, exec_onPart, hpage]
  rfl

theorem returns_unpin (dirty : Bool) :
    Returns view (unpin p dirty) H fun _ H' => H' = H.unpin p := by
  rintro t rfl
  exact ⟨(), _, rfl, rfl⟩

theorem returns_readPage (h : (H.node p).isSome) :
    Returns view (readPage p) H fun page H' => p = page.pageId ∧ H = H' := by
  rintro t rfl
  refine ⟨t.store.pages p, t, rfl, ?_, rfl⟩
  by_contra hne
  change ((t.store.pages p).node p).isSome at h
  rw [Page.node, if_neg (Ne.symm hne)] at h
  cases h

theorem node_content {page : Page Content} {N : AnyNode} (h : page.node p = some N) :
    ∃ n : AnyNode, page = { pageId := p, data := n.content } ∧ n.bare = N := by
  obtain ⟨id, data⟩ := page
  unfold Page.node at h
  split at h
  · next hid =>
    cases hid
    cases data with
    | zero => cases h
    | header => cases h
    | leaf n => exact ⟨.leaf n, rfl, Option.some.inj h⟩
    | internal n => exact ⟨.internal n, rfl, Option.some.inj h⟩
  · cases h

theorem Page.node_mk (n : AnyNode) :
    Page.node { pageId := p, data := n.content } p = some n.bare := by
  rw [Page.node, if_pos rfl]
  cases n <;> rfl

theorem returns_node {N : AnyNode} (h : H.node p = some N) :
    Returns view (node p) H fun n H' => n.bare = N ∧ H = H' := by
  rintro t rfl
  obtain ⟨n, hpage, hbare⟩ := node_content h
  refine ⟨n, t, ?_, hbare, rfl⟩
  have hread : exec (readPage p) t = (.ok (t.store.pages p), t) := rfl
  rw [node, exec_bind_ok hread, hpage]
  cases n <;> rfl

theorem returns_leafNode {N : Node Bytes} (h : H.node p = some (.leaf N)) :
    Returns view (leafNode p) H fun n H' => n.bare = N ∧ H = H' := by
  refine (returns_node h).bind ?_
  rintro (n | n) _ ⟨hbare, rfl⟩
  · exact .pure ⟨AnyNode.leaf.inj hbare, rfl⟩
  · cases hbare

theorem returns_internalNode {N : Node PageId} (h : H.node p = some (.internal N)) :
    Returns view (internalNode p) H fun n H' => n.bare = N ∧ H = H' := by
  refine (returns_node h).bind ?_
  rintro (n | n) _ ⟨hbare, rfl⟩
  · cases hbare
  · exact .pure ⟨AnyNode.internal.inj hbare, rfl⟩

/-- A changed page changes one node. -/
theorem node_update (pages : PageId → Page Content) (page : Page Content) :
    (fun q => (Function.update pages p page q).node q) =
      Function.update (fun q => (pages q).node q) p (page.node p) := by
  funext q
  by_cases h : q = p
  · subst h
    rw [Function.update_self, Function.update_self]
  · rw [Function.update_of_ne h, Function.update_of_ne h]

theorem returns_writePage (n : AnyNode) :
    Returns view (writePage p { pageId := p, data := n.content }) H
      fun _ H' => H' = H.put p n.bare := by
  refine .modify ?_
  rintro t rfl
  have hnode := node_update (p := p) t.store.pages { pageId := p, data := n.content }
  rw [Page.node_mk] at hnode
  exact congrArg (fun f => { view t with node := f }) hnode

theorem returns_writeData (n : AnyNode) (h : (H.node p).isSome) :
    Returns view (writeData p n.content) H fun _ H' => H' = H.put p n.bare := by
  refine (returns_readPage h).bind ?_
  rintro ⟨id, data⟩ _ ⟨rfl, rfl⟩
  exact returns_writePage n

theorem returns_writeLeaf (n : Node Bytes) (h : (H.node p).isSome) :
    Returns view (writeData p (.leaf n)) H fun _ H' => H' = H.put p (.leaf n.bare) :=
  returns_writeData (.leaf n) h

theorem returns_writeInternal (n : Node PageId) (h : (H.node p).isSome) :
    Returns view (writeData p (.internal n)) H fun _ H' => H' = H.put p (.internal n.bare) :=
  returns_writeData (.internal n) h

theorem returns_initLeaf (parentId : PageId) :
    Returns view (initLeaf p p parentId) H
      fun _ H' => H' = H.put p (.leaf (Node.init INVALID_PAGE_ID)) :=
  returns_writePage (.leaf (Node.init parentId))

theorem returns_initInternal (parentId : PageId) :
    Returns view (initInternal p p parentId) H
      fun _ H' => H' = H.put p (.internal (Node.init INVALID_PAGE_ID)) :=
  returns_writePage (.internal (Node.init parentId))

theorem returns_newPage :
    Returns view (onStore PageStore.newPage) H
      fun r H' => some (H.next, H.next) = r ∧ H' = H.alloc.pin H.next := by
  rintro t rfl
  refine ⟨_, _, rfl, rfl, ?_⟩
  have hnode := node_update (p := (view t).next) t.store.pages
    { pageId := (view t).next, data := Content.zero }
  rw [Page.node, if_pos rfl] at hnode
  exact congrArg (fun f => { (view t).alloc.pin (view t).next with node := f }) hnode

theorem returns_deletePage (hp : 0 < p) (hpin : p ∉ H.pins)
    (hfree : H.freePages.length < MAX_FREE_PAGES) :
    Returns view (onStore (PageStore.deletePage p)) H fun _ H' => H' = H.release p := by
  rintro t rfl
  have hpin : p ∉ t.store.pins := hpin
  have hfree : ¬ MAX_FREE_PAGES ≤ t.store.freePages.length := not_le.mpr hfree
  have hdel : exec (PageStore.deletePage p) t.store =
      (.ok (), { t.store with
        pages := Function.update t.store.pages p Page.clear
        freePages := t.store.freePages ++ [p] }) := by
    change exec (Store.deletePage p) t.store = _
    simp only [Store.deletePage, exec_get_bind, if_neg hpin, if_neg hfree, exec_set]
  have hnode := node_update (p := p) t.store.pages Page.clear
  rw [Page.node, if_neg (show (Page.clear : Page Content).pageId ≠ p from hp.ne)] at hnode
  refine ⟨(), { t with store := _ }, by rw [onStore, exec_onPart, hdel], ?_⟩
  exact congrArg (fun f => { (view t).release p with node := f }) hnode

theorem returns_setRoot (h : 0 < H.numPages) :
    Returns view (setRoot p) H fun _ H' => H' = H.setRoot p := by
  rintro t rfl
  have hnum : t.store.numPages ≠ 0 := Nat.ne_of_gt h
  have hset : exec (PageStore.setRootPageId p) t.store =
      (.ok (), { t.store with rootId := p }) := by
    change exec (Store.setRootPageId p) t.store = _
    simp only [Store.setRootPageId, exec_get_bind, if_neg hnum, exec_set]
  refine ⟨(), { store := { t.store with rootId := p }, rootPageId := p }, ?_, rfl⟩
  simp only [setRoot, persistRoot, exec_modify_bind, exec_get_bind, onStore, exec_onPart, hset]

/-- A header is changed in a field that is not followed. -/
theorem returns_setHdr {f : NodeHeader → NodeHeader} (hf : ∀ h, (f h).bare = h.bare)
    (h : (H.node p).isSome) : Returns view (setHdr p f) H fun _ H' => H' = H := by
  obtain ⟨N, hN⟩ := Option.isSome_iff_exists.mp h
  refine (returns_node hN).bind ?_
  rintro n _ ⟨hbare, rfl⟩
  refine (returns_writeData _ h).last ?_
  have hmap : (n.mapHdr f).bare = N := by
    rw [← hbare]
    cases n with
    | leaf n => simp only [AnyNode.mapHdr, AnyNode.bare, Node.bare, hf]
    | internal n => simp only [AnyNode.mapHdr, AnyNode.bare, Node.bare, hf]
  rw [hmap, Heap.put_eq_self hN]

theorem returns_setFirstChild {N : Node PageId} (h : H.node p = some (.internal N))
    (child : PageId) : Returns view (setHdr p fun h => { h with firstChild := child }) H fun _ H' =>
      H' = H.put p (.internal { N with hdr := { N.hdr with firstChild := child } }) := by
  refine (returns_node h).bind ?_
  rintro (n | n) _ ⟨hbare, rfl⟩
  · cases hbare
  · cases hbare
    exact returns_writeInternal _ (by rw [h]; rfl)

theorem returns_updateHdr {f : NodeHeader → NodeHeader} (hf : ∀ h, (f h).bare = h.bare)
    (cond : String) (h : H.Live p) : Returns view (updateHdr p cond f) H fun _ H' => H' = H := by
  refine (returns_fetch cond h.pos h.lt).seqVal ?_
  refine (returns_setHdr hf (h.pin _).isSome).seq ?_
  refine (returns_unpin true).last ?_
  rw [Heap.unpin_pin]

theorem returns_updateHdrIfAny {f : NodeHeader → NodeHeader} (hf : ∀ h, (f h).bare = h.bare)
    (cond : String) (h : p = INVALID_PAGE_ID ∨ H.Live p) :
    Returns view (updateHdrIfAny p cond f) H fun _ H' => H' = H := by
  rcases h with rfl | h
  · exact .pure rfl
  · rw [updateHdrIfAny, if_neg h.ne_invalid]
    exact returns_updateHdr hf cond h

theorem returns_setParent (parentId : PageId) (cond : String) (h : H.Live p) :
    Returns view (updateHdr p cond fun h => { h with parentId }) H fun _ H' => H' = H := by
  apply returns_updateHdr
  · intro h
    rfl
  · exact h

theorem returns_setLeft (leftSibling : PageId) (cond : String)
    (h : p = INVALID_PAGE_ID ∨ H.Live p) :
    Returns view (updateHdrIfAny p cond fun h => { h with leftSibling }) H fun _ H' => H' = H := by
  apply returns_updateHdrIfAny
  · intro h
    rfl
  · exact h

theorem returns_reparent (parentId : PageId) (h : H.Live p) :
    Returns view (reparent parentId p) H fun _ H' => H' = H := by
  rw [reparent, updateHdrIfAny, if_neg h.ne_invalid]
  exact returns_setParent parentId _ h

theorem returns_reparentAll (parentId : PageId) {children : List PageId}
    (h : ∀ c ∈ children, H.Live c) :
    Returns view (reparentAll parentId children) H fun _ H' => H' = H := by
  induction children with
  | nil => exact .pure rfl
  | cons c children ih =>
    refine (returns_reparent parentId (h c List.mem_cons_self)).seq ?_
    exact ih fun c' hc' => h c' (List.mem_cons_of_mem c hc')

end Rules

end BTree

end KeyVDB
