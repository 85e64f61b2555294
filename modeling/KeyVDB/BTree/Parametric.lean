import KeyVDB.BTree.Tree

/-!
# The tree's code does not look into its store

The tree reaches its pages only through `PageStore`. A relation between the calls on two trees that
goes through the operations of the monad, and that holds of what the tree calls of its two stores,
therefore holds of `get`, `insert` and `remove`.
-/

namespace KeyVDB

namespace BTree

variable {σ τ Ptr : Type} [PageStore σ Ptr] [PageStore τ Ptr]

/-- The relation goes through the operations of the monad, and holds of the calls of the store, of
what is done through a pointer and of what is done with the root's id. -/
structure Respected (P : ∀ {α : Type}, BTreeM σ α → BTreeM τ α → Prop) : Prop where
  pure : ∀ {α : Type} (a : α), P (Pure.pure a) (Pure.pure a)
  throw : ∀ {α : Type} (e : Exn), P (throw e : BTreeM σ α) (throw e)
  bind : ∀ {α β : Type} {x : BTreeM σ α} {y : BTreeM τ α} {f : α → BTreeM σ β} {g : α → BTreeM τ β},
    P x y → (∀ a, P (f a) (g a)) → P (x >>= f) (y >>= g)
  fetchPage : ∀ id, P (onStore (PageStore.fetchPage id)) (onStore (PageStore.fetchPage id))
  newPage : P (onStore PageStore.newPage) (onStore PageStore.newPage)
  unpinPage : ∀ id dirty,
    P (onStore (PageStore.unpinPage id dirty)) (onStore (PageStore.unpinPage id dirty))
  deletePage : ∀ id, P (onStore (PageStore.deletePage id)) (onStore (PageStore.deletePage id))
  setRootPageId : ∀ id,
    P (onStore (PageStore.setRootPageId id)) (onStore (PageStore.setRootPageId id))
  readPage : ∀ p, P (readPage p) (readPage p)
  writePage : ∀ p page, P (writePage p page) (writePage p page)
  get_bind : ∀ {β : Type} {f : BTree σ → BTreeM σ β} {g : BTree τ → BTreeM τ β},
    (∀ t u, PageStore.numPages t.store = PageStore.numPages u.store →
      t.rootPageId = u.rootPageId → P (f t) (g u)) → P (MonadState.get >>= f) (MonadState.get >>= g)
  moveRoot : ∀ id, P (modify fun t => { t with rootPageId := id })
    (modify fun t => { t with rootPageId := id })

namespace Respected

variable {P : ∀ {α : Type}, BTreeM σ α → BTreeM τ α → Prop} (h : Respected P)

include h

omit [PageStore σ Ptr] [PageStore τ Ptr] h in
theorem ite {α : Type} {c : Prop} [Decidable c] {x x' : BTreeM σ α} {y y' : BTreeM τ α} (hx : P x y)
    (hx' : P x' y') : P (if c then x else x') (if c then y else y') := by
  split
  · exact hx
  · exact hx'

theorem ofExcept {α : Type} (e : Except Exn α) : P (ofExcept e) (ofExcept e) := by
  cases e with
  | error e => exact h.throw e
  | ok a => exact h.pure a

/-! ## Pages and nodes -/

theorem fetch (id : PageId) (cond : String) : P (fetch id cond) (fetch id cond) := by
  refine h.bind (h.fetchPage id) fun p => ?_
  cases p with
  | none => exact h.throw _
  | some p => exact h.pure p

theorem unpin (id : PageId) (dirty : Bool) : P (unpin id dirty) (unpin id dirty) :=
  h.unpinPage id dirty

theorem writeData (p : Ptr) (data : Content) : P (writeData p data) (writeData p data) :=
  h.bind (h.readPage p) fun _ => h.writePage p _

theorem node (p : Ptr) : P (node p) (node p) := by
  refine h.bind (h.readPage p) fun page => ?_
  cases page.data with
  | leaf n => exact h.pure _
  | internal n => exact h.pure _
  | zero => exact h.throw _
  | header d => exact h.throw _

theorem leafNode (p : Ptr) : P (leafNode p) (leafNode p) := by
  refine h.bind (h.node p) fun n => ?_
  cases n with
  | leaf n => exact h.pure _
  | internal n => exact h.throw _

theorem internalNode (p : Ptr) : P (internalNode p) (internalNode p) := by
  refine h.bind (h.node p) fun n => ?_
  cases n with
  | leaf n => exact h.throw _
  | internal n => exact h.pure _

theorem setHdr (p : Ptr) (f : NodeHeader → NodeHeader) : P (setHdr p f) (setHdr p f) :=
  h.bind (h.node p) fun _ => h.writeData p _

theorem updateHdr (id : PageId) (cond : String) (f : NodeHeader → NodeHeader) :
    P (updateHdr id cond f) (updateHdr id cond f) :=
  h.bind (h.fetch id cond) fun p => h.bind (h.setHdr p f) fun _ => h.unpin id true

theorem updateHdrIfAny (id : PageId) (cond : String) (f : NodeHeader → NodeHeader) :
    P (updateHdrIfAny id cond f) (updateHdrIfAny id cond f) :=
  ite (h.pure _) (h.updateHdr id cond f)

theorem reparentAll (parentId : PageId) (children : List PageId) :
    P (reparentAll parentId children) (reparentAll parentId children) := by
  induction children with
  | nil => exact h.pure _
  | cons child rest ih => exact h.bind (h.updateHdrIfAny _ _ _) fun _ => ih

theorem setRoot (id : PageId) : P (setRoot id) (setRoot id) :=
  h.bind (h.moveRoot id) fun _ => h.get_bind fun t u _ hroot => by
    rw [hroot]
    exact h.setRootPageId _

/-! ## Construction and lookup -/

theorem create : P create create := by
  refine h.bind h.newPage fun r => ?_
  cases r with
  | none => exact h.throw _
  | some r =>
    obtain ⟨rootId, rootPage⟩ := r
    exact h.bind (h.writePage _ _) fun _ => h.bind (h.unpin _ _) fun _ => h.setRoot _

theorem descend (key : Bytes) (fuel : Nat) (cur : PageId) (breadcrumbs : List PageId) :
    P (descend key fuel cur breadcrumbs) (descend key fuel cur breadcrumbs) := by
  induction fuel generalizing cur breadcrumbs with
  | zero => exact h.throw _
  | succ fuel ih =>
    refine h.bind (h.fetch cur _) fun page => h.bind (h.node page) fun n => ?_
    cases n with
    | leaf n => exact h.pure _
    | internal n => exact h.bind (h.unpin cur false) fun _ => ih _ _

theorem findLeaf (key : Bytes) : P (findLeaf key) (findLeaf key) := by
  refine h.get_bind fun t u hsize hroot => ?_
  rw [hsize, hroot]
  exact h.descend key _ _ _

theorem get (key : Bytes) : P (get key) (get key) :=
  h.bind (h.findLeaf key) fun x => h.bind (h.readPage x.1) fun _ =>
    h.bind (h.leafNode x.1) fun _ => h.bind (h.unpin _ false) fun _ => h.pure _

/-! ## Insertion -/

theorem createNewRoot (leftId : PageId) (sepKey : Bytes) (rightId : PageId) :
    P (createNewRoot leftId sepKey rightId) (createNewRoot leftId sepKey rightId) := by
  refine h.bind h.newPage fun r => ?_
  cases r with
  | none => exact h.throw _
  | some r =>
    obtain ⟨newRootId, newRootPage⟩ := r
    refine h.bind (h.writePage _ _) fun _ => h.bind (h.setHdr _ _) fun _ =>
      h.bind (h.internalNode _) fun n => ?_
    split
    · exact h.throw _
    · exact h.bind (h.writeData _ _) fun _ => h.bind (h.unpin _ _) fun _ =>
        h.bind (h.updateHdr _ _ _) fun _ => h.bind (h.updateHdr _ _ _) fun _ => h.setRoot _

theorem addSeparator (p : Ptr) (id : PageId) (sepKey : Bytes) (rightId : PageId)
    (room cond : String) :
    P (addSeparator p id sepKey rightId room cond) (addSeparator p id sepKey rightId room cond) := by
  refine h.bind (h.internalNode p) fun n => ?_
  split
  · exact h.throw _
  · exact h.bind (h.writeData _ _) fun _ => h.updateHdr _ _ _

theorem splitParent (p : Ptr) (parentId : PageId) (sepKey : Bytes) (rightId : PageId) :
    P (splitParent p parentId sepKey rightId) (splitParent p parentId sepKey rightId) := by
  refine h.bind (h.internalNode p) fun n => h.bind h.newPage fun r => ?_
  cases r with
  | none => exact h.throw _
  | some r =>
    obtain ⟨parentRightId, parentRightPage⟩ := r
    refine h.bind (h.writePage _ _) fun _ => h.bind (h.internalNode _) fun r =>
      h.bind (h.ofExcept _) fun x => h.bind (h.writeData _ _) fun _ =>
        h.bind (h.writeData _ _) fun _ => h.bind (h.addSeparator _ _ _ _ _ _) fun _ =>
          h.bind (h.internalNode _) fun r => ?_
    exact h.bind (h.reparentAll _ _) fun _ => h.bind (h.unpin _ _) fun _ =>
      h.bind (h.unpin _ _) fun _ => h.pure _

theorem insertIntoParent (leftId : PageId) (sepKey : Bytes) (rightId : PageId)
    (breadcrumbs : List PageId) :
    P (insertIntoParent leftId sepKey rightId breadcrumbs)
      (insertIntoParent leftId sepKey rightId breadcrumbs) := by
  induction breadcrumbs generalizing leftId sepKey rightId with
  | nil => exact h.createNewRoot _ _ _
  | cons parentId breadcrumbs ih =>
    refine h.bind (h.fetch _ _) fun p => h.bind (h.internalNode p) fun n => ?_
    have hadd := h.bind (h.addSeparator p parentId sepKey rightId "ok" "rp != nullptr") fun _ =>
      h.unpin parentId true
    refine ite (h.bind (h.writeData _ _) fun _ => ite ?_ hadd) hadd
    exact h.bind (h.splitParent _ _ _ _) fun x => ih _ _ _

theorem splitLeafPage (p : Ptr) (leafId : PageId) (key value : Bytes) :
    P (splitLeafPage p leafId key value) (splitLeafPage p leafId key value) := by
  refine h.bind (h.leafNode p) fun n => h.bind h.newPage fun r => ?_
  cases r with
  | none => exact h.bind (h.unpin _ _) fun _ => h.throw _
  | some r =>
    obtain ⟨rightId, rightPage⟩ := r
    refine h.bind (h.writePage _ _) fun _ => h.bind (h.leafNode _) fun r =>
      h.bind (h.ofExcept _) fun x => h.bind (h.writeData _ _) fun _ =>
        h.bind (h.writeData _ _) fun _ => h.bind (h.updateHdrIfAny _ _ _) fun _ =>
          h.bind (h.leafNode _) fun half => ?_
    exact h.bind (h.writeData _ _) fun _ => h.bind (h.unpin _ _) fun _ =>
      h.bind (h.unpin _ _) fun _ => h.pure _

theorem insert (key value : Bytes) : P (insert key value) (insert key value) := by
  refine ite (h.bind (h.findLeaf key) fun x => h.bind (h.readPage _) fun page =>
    h.bind (h.leafNode _) fun leaf => h.bind (h.writeData _ _) fun _ => ?_) (h.throw _)
  exact ite (h.unpin _ _) (h.bind (h.splitLeafPage _ _ _ _) fun y =>
    h.insertIntoParent _ _ _ _)

/-! ## Removal -/

theorem collapseInto (newRoot oldRoot : PageId) (cond : String) :
    P (collapseInto newRoot oldRoot cond) (collapseInto newRoot oldRoot cond) :=
  h.bind (h.updateHdr _ _ _) fun _ => h.bind (h.deletePage _) fun _ => h.setRoot _

theorem fixRoot (pageId : PageId) : P (fixRoot pageId) (fixRoot pageId) := by
  refine h.bind (h.fetch _ _) fun rp => h.bind (h.readPage rp) fun page => ?_
  cases page.data with
  | internal root =>
    exact ite (h.bind (h.unpin _ _) fun _ => ite (h.collapseInto _ _ _) (h.pure _))
      (h.unpin _ _)
  | leaf n => exact h.unpin _ _
  | zero => exact h.unpin _ _
  | header d => exact h.unpin _ _

theorem stealFromLeft (curPage leftPage : Ptr) :
    P (stealFromLeft curPage leftPage) (stealFromLeft curPage leftPage) := by
  refine h.bind (h.node _) fun cur => h.bind (h.node _) fun left => ?_
  cases cur with
  | leaf cur =>
    cases left with
    | leaf left =>
      exact h.bind (h.ofExcept _) fun x => h.bind (h.writeData _ _) fun _ =>
        h.bind (h.writeData _ _) fun _ => h.pure _
    | internal left => exact h.throw _
  | internal cur =>
    cases left with
    | leaf left => exact h.throw _
    | internal left =>
      exact h.bind (h.ofExcept _) fun x => h.bind (h.writeData _ _) fun _ =>
        h.bind (h.writeData _ _) fun _ => h.bind (h.readPage _) fun _ =>
          h.bind (h.updateHdrIfAny _ _ _) fun _ => h.pure _

theorem stealFromRight (curPage rightPage : Ptr) :
    P (stealFromRight curPage rightPage) (stealFromRight curPage rightPage) := by
  refine h.bind (h.node _) fun cur => h.bind (h.node _) fun right => ?_
  cases cur with
  | leaf cur =>
    cases right with
    | leaf right =>
      exact h.bind (h.ofExcept _) fun x => h.bind (h.writeData _ _) fun _ =>
        h.bind (h.writeData _ _) fun _ => h.pure _
    | internal right => exact h.throw _
  | internal cur =>
    cases right with
    | leaf right => exact h.throw _
    | internal right =>
      exact h.bind (h.ofExcept _) fun x => h.bind (h.writeData _ _) fun _ =>
        h.bind (h.writeData _ _) fun _ => h.bind (h.readPage _) fun _ =>
          h.bind (h.updateHdrIfAny _ _ _) fun _ => h.pure _

theorem borrow {steal : Ptr → Ptr → BTreeM σ Bytes} {steal' : Ptr → Ptr → BTreeM τ Bytes}
    (hsteal : ∀ p q, P (steal p q) (steal' p q)) (p : Ptr) (parentId pageId sib : PageId)
    (sepSlot : Nat) (cond : String) :
    P (borrow steal p parentId pageId sib sepSlot cond)
      (borrow steal' p parentId pageId sib sepSlot cond) := by
  refine ite (h.pure _) (h.bind (h.fetch _ _) fun q => h.bind (h.node q) fun n => ?_)
  refine ite (h.bind (h.unpin _ _) fun _ => h.pure _) (h.bind (h.fetch _ _) fun c =>
    h.bind (hsteal c q) fun newSep => h.bind (h.internalNode p) fun parent =>
      h.bind (h.ofExcept _) fun parent => h.bind (h.writeData _ _) fun _ => ?_)
  exact h.bind (h.unpin _ _) fun _ => h.bind (h.unpin _ _) fun _ =>
    h.bind (h.unpin _ _) fun _ => h.pure _

theorem mergeFrom (leftPage rightPage : Ptr) (sep : Bytes) :
    P (mergeFrom leftPage rightPage sep) (mergeFrom leftPage rightPage sep) := by
  refine h.bind (h.node _) fun left => h.bind (h.node _) fun right => ?_
  cases left with
  | leaf left =>
    cases right with
    | leaf right => exact h.bind (h.ofExcept _) fun x => h.writeData _ _
    | internal right => exact h.throw _
  | internal left =>
    cases right with
    | leaf right => exact h.throw _
    | internal right =>
      exact h.bind (h.ofExcept _) fun x => h.bind (h.writeData _ _) fun _ =>
        h.bind (h.readPage _) fun _ => h.reparentAll _ _

theorem relinkRight (leftPage : Ptr) (leftId : PageId) :
    P (relinkRight leftPage leftId) (relinkRight leftPage leftId) := by
  refine h.bind (h.node _) fun n => ?_
  cases n with
  | leaf left => exact h.updateHdrIfAny _ _ _
  | internal left => exact h.pure _

theorem mergePages (p : Ptr) (parentId leftId rightId : PageId) (sepSlot : Nat) :
    P (mergePages p parentId leftId rightId sepSlot)
      (mergePages p parentId leftId rightId sepSlot) := by
  refine h.bind (h.fetch _ _) fun lp => h.bind (h.fetch _ _) fun rp =>
    h.bind (h.internalNode _) fun parent => h.bind (h.ofExcept _) fun sep =>
      h.bind (h.mergeFrom _ _ _) fun _ => h.bind (h.relinkRight _ _) fun _ =>
        h.bind (h.internalNode _) fun parent => h.bind (h.writeData _ _) fun _ => ?_
  refine h.bind (h.unpin _ _) fun _ => h.bind (h.unpin _ _) fun _ =>
    h.bind (h.deletePage _) fun _ => h.get_bind fun t u _ hroot => ?_
  rw [hroot]
  refine h.bind (h.unpin _ _) fun _ => ?_
  exact ite (h.pure _) (ite (h.bind (h.collapseInto _ _ _) fun _ => h.pure _) (h.pure _))

theorem fixUnderflow (pageId : PageId) (breadcrumbs : List PageId) :
    P (fixUnderflow pageId breadcrumbs) (fixUnderflow pageId breadcrumbs) := by
  induction breadcrumbs generalizing pageId with
  | nil => exact h.fixRoot pageId
  | cons parentId breadcrumbs ih =>
    refine h.bind (h.fetch _ _) fun p => h.bind (h.internalNode p) fun parent =>
      h.bind (h.ofExcept _) fun pos => ?_
    refine h.bind (h.borrow h.stealFromLeft _ _ _ _ _ _) fun b => ite (h.pure _) ?_
    refine h.bind (h.borrow h.stealFromRight _ _ _ _ _ _) fun b => ite (h.pure _) ?_
    refine ite ?_ (ite ?_ (h.unpin _ _))
    · exact h.bind (h.mergePages _ _ _ _ _) fun b => ite (ih _) (h.pure _)
    · exact h.bind (h.mergePages _ _ _ _ _) fun b => ite (ih _) (h.pure _)

theorem remove (key : Bytes) : P (remove key) (remove key) := by
  refine h.bind (h.findLeaf key) fun x => h.bind (h.readPage _) fun page =>
    h.bind (h.leafNode _) fun leaf => ite ?_ (h.bind (h.unpin _ _) fun _ => h.pure _)
  refine h.bind (h.writeData _ _) fun _ => h.get_bind fun t u _ hroot => ?_
  rw [hroot]
  exact h.bind (h.unpin _ _) fun _ =>
    ite (h.bind (h.fixUnderflow _ _) fun _ => h.pure _) (h.pure _)

end Respected

end BTree

end KeyVDB
