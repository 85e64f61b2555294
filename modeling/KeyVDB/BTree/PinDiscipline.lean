import KeyVDB.BTree.Pins
import KeyVDB.BTree.Cells
import KeyVDB.Lib.Run

/-!
# The tree keeps to the rules

From a whole tree on which nothing is pinned, every call that returns leaves nothing pinned, never
has more than four pins, deletes only pages that are not pinned, and leaves what it put into a page
in a dirty frame or in the file.
-/

namespace KeyVDB

open BufferPool (Hold)

/-! ## Where the ids in a node come from -/

namespace Node

variable {α : Type} [CellValue α]

theorem place_hdr (n : Node α) (slot : Nat) (key : Bytes) (a : α) :
    (n.place slot key a).2.hdr = n.hdr := by
  by_cases hroom : Room n.cells (key, a)
  · obtain ⟨n', hplace, -, hhdr⟩ := place_room slot hroom
    rw [hplace]
    exact hhdr
  · rw [place_no_room hroom]
    rfl

theorem insertLeafCell_hdr (n : Node Bytes) (key value : Bytes) :
    (n.insertLeafCell key value).2.hdr = n.hdr := by
  unfold insertLeafCell
  dsimp only
  split
  · exact place_hdr ..
  · split
    · split
      · rfl
      · exact place_hdr ..
    · exact place_hdr ..

theorem mem_of_place {n n' : Node α} {slot : Nat} {key : Bytes} {a : α}
    (h : n.place slot key a = (true, n')) : ∀ c ∈ n'.cells, c ∈ n.cells ∨ c = (key, a) := by
  intro c hc
  rw [(place_eq_true h).2.1] at hc
  exact (List.eq_or_mem_of_mem_insertIdx hc).symm

theorem mem_of_copySeparators {room : String} {n n' : Node PageId} {cells : List (Bytes × PageId)}
    (h : copyCells insertSeparator room n cells = .ok n') :
    n'.hdr = n.hdr ∧ ∀ c ∈ n'.cells, c ∈ n.cells ∨ c ∈ cells := by
  induction cells generalizing n with
  | nil =>
    cases h
    exact ⟨rfl, fun c hc => .inl hc⟩
  | cons c cells ih =>
    rw [copyCells] at h
    split at h
    · next n₁ hins =>
      obtain ⟨hhdr, hcells⟩ := ih h
      refine ⟨hhdr.trans (place_eq_true hins).2.2, fun x hx => ?_⟩
      rcases hcells x hx with hx | hx
      · rcases mem_of_place hins x hx with hx | rfl
        · exact .inl hx
        · exact .inr List.mem_cons_self
      · exact .inr (List.mem_cons_of_mem _ hx)
    · cases h

theorem splitLeaf_links {n right l r : Node Bytes} {id rightId : PageId} {sep : Bytes}
    (h : n.splitLeaf right id rightId = .ok (l, r, sep)) :
    l.hdr.rightSibling = rightId ∧ r.hdr.rightSibling = n.hdr.rightSibling := by
  unfold splitLeaf at h
  obtain ⟨-, -, h⟩ := except_bind_eq_ok.mp h
  obtain ⟨key, -, h⟩ := except_bind_eq_ok.mp h
  obtain ⟨copied, -, h⟩ := except_bind_eq_ok.mp h
  cases h
  exact ⟨rfl, rfl⟩

end Node

namespace BTree

theorem mem_links_internal {n : Node PageId} {l : PageId} :
    l ∈ links (.internal n) ↔ l = n.hdr.firstChild ∨ ∃ c ∈ n.cells, c.2 = l := by
  rw [links, List.mem_cons, List.mem_map]

theorem links_insertSeparator {n n' : Node PageId} {key : Bytes} {child l : PageId}
    (h : n.insertSeparator key child = (true, n')) (hl : l ∈ links (.internal n')) :
    l ∈ links (.internal n) ∨ l = child := by
  rw [mem_links_internal] at hl ⊢
  rcases hl with rfl | ⟨c, hc, rfl⟩
  · exact .inl (.inl (by rw [(Node.place_eq_true h).2.2]))
  · rcases Node.mem_of_place h c hc with hc | rfl
    · exact .inl (.inr ⟨c, hc, rfl⟩)
    · exact .inr rfl

theorem links_splitInternal {n right l r : Node PageId} {sep : Bytes}
    (h : n.splitInternal right = .ok (l, r, sep)) :
    (∀ i ∈ links (.internal l), i ∈ links (.internal n)) ∧
      ∀ i ∈ links (.internal r), i ∈ links (.internal n) := by
  unfold Node.splitInternal at h
  obtain ⟨⟨⟩, hcheck, h⟩ := except_bind_eq_ok.mp h
  obtain ⟨key, -, h⟩ := except_bind_eq_ok.mp h
  obtain ⟨firstChild, hfirst, h⟩ := except_bind_eq_ok.mp h
  obtain ⟨r', hcopy, h⟩ := except_bind_eq_ok.mp h
  cases h
  have hright : right.cells = [] := by
    unfold Node.splitCheck at hcheck
    split at hcheck
    · cases hcheck
    · split at hcheck
      · cases hcheck
      · next hempty => exact List.length_eq_zero_iff.mp (not_not.mp hempty)
  obtain ⟨hhdr, hcells⟩ := Node.mem_of_copySeparators hcopy
  refine ⟨fun i hi => ?_, fun i hi => ?_⟩
  · rw [mem_links_internal] at hi ⊢
    refine hi.imp_right ?_
    rintro ⟨c, hc, rfl⟩
    exact ⟨c, List.mem_of_mem_take hc, rfl⟩
  · rw [mem_links_internal] at hi ⊢
    right
    rcases hi with rfl | ⟨c, hc, rfl⟩
    · rw [hhdr]
      rw [Node.valueAt] at hfirst
      split at hfirst
      · next c hc =>
        cases hfirst
        exact ⟨c, List.mem_of_getElem? hc, rfl⟩
      · cases hfirst
    · rcases hcells c hc with hc | hc
      · rw [hright] at hc
        cases hc
      · exact ⟨c, List.mem_of_mem_drop hc, rfl⟩

theorem childFor_mem_links (n : Node PageId) (key : Bytes) :
    n.childFor key ∈ links (.internal n) ∨ n.childFor key = INVALID_PAGE_ID := by
  unfold Node.childFor
  dsimp only
  split
  · exact .inl (mem_links_internal.mpr (.inl rfl))
  · cases hc : n.cells[_ - 1]? with
    | none => exact .inr rfl
    | some c => exact .inl (mem_links_internal.mpr (.inr ⟨c, List.mem_of_getElem? hc, rfl⟩))

/-! ## Pages and nodes -/

section Nodes

variable {grows : Bool} {holds : List Hold} {known : List PageId} {id : PageId} {p : FrameId} {b : Bool}

/-- What a node refers to is known where it must be. -/
theorem triple_node (hx : ⟨id, p, b⟩ ∈ holds) :
    Triple (IfNode p (Holding grows holds known)) (node p) fun n =>
      Holding grows holds (trusted grows (links n.content) ++ known) := by
  intro t h n t' hexec
  have hread : exec (readPage p) t = (.ok (t.store.pool.frames p).page, t) := rfl
  rw [node, exec_bind_ok hread] at hexec
  have hlinks : isNode (t.store.pool.frames p).page.data → Holding grows holds
      (trusted grows (links (t.store.pool.frames p).page.data) ++ known) t :=
    fun hnode => (h hnode).know_links hx
  split at hexec
  · next n hdata =>
    cases hexec
    rw [hdata] at hlinks
    exact hlinks rfl
  · next n hdata =>
    cases hexec
    rw [hdata] at hlinks
    exact hlinks rfl
  · cases hexec

theorem triple_leafNode (hx : ⟨id, p, b⟩ ∈ holds) :
    Triple (IfNode p (Holding grows holds known)) (leafNode p) fun n =>
      Holding grows holds (trusted grows (links (.leaf n)) ++ known) := by
  refine .bind (triple_node hx) fun n => ?_
  cases n with
  | leaf n => exact .pure fun _ h => h
  | internal n => exact .throw _

theorem triple_internalNode (hx : ⟨id, p, b⟩ ∈ holds) :
    Triple (IfNode p (Holding grows holds known)) (internalNode p) fun n =>
      Holding grows holds (trusted grows (links (.internal n)) ++ known) := by
  refine .bind (triple_node hx) fun n => ?_
  cases n with
  | leaf n => exact .throw _
  | internal n => exact .pure fun _ h => h

/-- A change of the header gives a node no other links than these. -/
def HdrLinks (f : NodeHeader → NodeHeader) (known : List PageId) : Prop :=
  ∀ (n : AnyNode), ∀ l ∈ links (n.mapHdr f).content, l ∈ links n.content ∨ l ∈ known

theorem HdrLinks.of_eq {f : NodeHeader → NodeHeader}
    (hright : ∀ h, (f h).rightSibling = h.rightSibling) (hfirst : ∀ h, (f h).firstChild = h.firstChild)
    (known : List PageId) : HdrLinks f known := by
  intro n l hl
  cases n with
  | leaf n => exact .inl (by simpa [AnyNode.mapHdr, AnyNode.content, links, hright] using hl)
  | internal n => exact .inl (by simpa [AnyNode.mapHdr, AnyNode.content, links, hfirst] using hl)

theorem hdrLinks_parent (parentId : PageId) (known : List PageId) :
    HdrLinks (fun h => { h with parentId }) known :=
  HdrLinks.of_eq (f := fun h => { h with parentId }) (fun _ => rfl) (fun _ => rfl) known

theorem hdrLinks_left (leftSibling : PageId) (known : List PageId) :
    HdrLinks (fun h => { h with leftSibling }) known :=
  HdrLinks.of_eq (f := fun h => { h with leftSibling }) (fun _ => rfl) (fun _ => rfl) known

theorem triple_setHdr {f : NodeHeader → NodeHeader} (hx : ⟨id, p, true⟩ ∈ holds)
    (hf : HdrLinks f known) :
    Triple (IfNode p (Holding grows holds known)) (setHdr p f) fun _ =>
      Holding grows holds known := by
  refine .bind (triple_node hx) fun n => ?_
  refine (triple_writeData hx fun hg l hl => ?_).post fun _ _ h => ?_
  · subst hg
    exact .inl (List.mem_append.mpr (hf n l hl))
  · exact h.mono fun i hi => .inl (List.mem_append_right _ hi)

theorem triple_updateHdr {f : NodeHeader → NodeHeader} (cond : String) (hlen : holds.length < 4)
    (hid : grows = true → id ∈ known) (hf : HdrLinks f known) :
    Triple (Holding grows holds known) (updateHdr id cond f) fun _ => Holding grows holds known := by
  refine .bind (triple_fetch cond hlen hid) fun p => ?_
  have hx : (⟨id, p, true⟩ : Hold) ∈ ⟨id, p, true⟩ :: holds := List.mem_cons_self
  refine .bind ((triple_setHdr hx ?_).pre fun _ h hnode => (h hnode).change) fun _ => ?_
  · exact fun n l hl => (hf n l hl).imp_right (List.mem_cons_of_mem _)
  · refine (triple_unpin (.refl _) fun _ => rfl).post fun _ _ h => ?_
    exact h.mono fun i hi => .inl (List.mem_cons_of_mem _ hi)

theorem triple_updateHdrIfAny {f : NodeHeader → NodeHeader} (cond : String) (hlen : holds.length < 4)
    (hid : grows = true → id ∈ known) (hf : HdrLinks f known) :
    Triple (Holding grows holds known) (updateHdrIfAny id cond f) fun _ =>
      Holding grows holds known :=
  .ite (fun _ => .pure fun _ h => h) fun _ => triple_updateHdr cond hlen hid hf

theorem triple_reparent (parentId : PageId) (hlen : holds.length < 4)
    (hid : grows = true → id ∈ known) :
    Triple (Holding grows holds known) (reparent parentId id) fun _ => Holding grows holds known :=
  triple_updateHdrIfAny _ hlen hid (hdrLinks_parent parentId known)

theorem triple_reparentAll (parentId : PageId) {children : List PageId} (hlen : holds.length < 4)
    (hids : grows = true → ∀ id ∈ children, id ∈ known) :
    Triple (Holding grows holds known) (reparentAll parentId children) fun _ =>
      Holding grows holds known := by
  induction children with
  | nil => exact .pure fun _ h => h
  | cons child rest ih =>
    refine .bind (triple_reparent parentId hlen fun hg => hids hg child List.mem_cons_self) fun _ => ?_
    exact ih fun hg id hid => hids hg id (List.mem_cons_of_mem _ hid)

end Nodes

/-! ## Lookup -/

section Lookup

variable {grows : Bool} {known : List PageId}

/-- The leaf is pinned, and the pages above it are known. -/
theorem triple_descend (key : Bytes) (fuel : Nat) {cur : PageId} {breadcrumbs : List PageId}
    (hcur : grows = true → cur ∈ known) (hcrumbs : ∀ id ∈ breadcrumbs, id ∈ known) :
    Triple (Holding grows [] known) (descend key fuel cur breadcrumbs) fun x t =>
      ∃ leafId, Holding grows [⟨leafId, x.1, false⟩] (leafId :: x.2) t := by
  induction fuel generalizing cur breadcrumbs known with
  | zero => exact .throw _
  | succ fuel ih =>
    refine .bind (triple_fetch _ (by decide) hcur) fun p => ?_
    refine .bind (triple_node List.mem_cons_self) fun n => ?_
    cases n with
    | leaf n =>
      refine .pure fun t h => ⟨cur, h.mono fun i hi => .inl (List.mem_append_right _ ?_)⟩
      rcases List.mem_cons.mp hi with rfl | hi
      · exact List.mem_cons_self
      · exact List.mem_cons_of_mem _ (hcrumbs i hi)
    | internal n =>
      refine .bind (triple_unpin (.refl _) fun e => e) fun _ => ?_
      have hnext : ∀ t, Holding grows []
          (trusted grows (links (.internal n)) ++ cur :: known) t →
          Holding grows [] (trusted grows [n.childFor key] ++ cur :: known) t := by
        intro t h
        refine h.mono fun i hi => ?_
        rcases List.mem_append.mp hi with hi | hi
        · cases grows with
          | false => cases hi
          | true =>
            rw [List.mem_singleton.mp hi]
            exact (childFor_mem_links n key).imp_left (List.mem_append_left _)
        · exact .inl (List.mem_append_right _ hi)
      refine (ih ?_ fun i hi => List.mem_append_right _ ?_).pre hnext
      · rintro rfl
        exact List.mem_cons_self
      · rcases List.mem_cons.mp hi with rfl | hi
        · exact List.mem_cons_self
        · exact List.mem_cons_of_mem _ (hcrumbs i hi)

theorem triple_findLeaf (key : Bytes) :
    Triple (Holding grows [] known) (findLeaf key) fun x t =>
      ∃ leafId, Holding grows [⟨leafId, x.1, false⟩] (leafId :: x.2) t := by
  refine .get_bind fun t h => ?_
  have hroot : Holding grows [] (trusted grows [t.rootPageId] ++ known) t := by
    cases grows with
    | false => exact h
    | true => exact h.know_root
  have hcur : grows = true → t.rootPageId ∈ trusted grows [t.rootPageId] ++ known := by
    rintro rfl
    exact List.mem_cons_self
  rintro _ rfl
  exact triple_descend key _ hcur (fun _ hi => absurd hi List.not_mem_nil) _ hroot

/-- The id of the leaf is the one in its page. -/
theorem triple_leafId {p : FrameId} {breadcrumbs : List PageId} :
    Triple (fun t => ∃ leafId, Holding grows [⟨leafId, p, false⟩] (leafId :: breadcrumbs) t)
      (readPage p) fun page =>
        Holding grows [⟨page.pageId, p, false⟩] (page.pageId :: breadcrumbs) := by
  rintro t ⟨leafId, h⟩ page t' hexec
  obtain ⟨rfl, h⟩ := triple_readPage List.mem_cons_self t h page t' hexec
  exact h

theorem triple_get (key : Bytes) :
    Triple (Holding grows [] known) (get key) fun _ => Holding grows [] [] := by
  refine .bind (triple_findLeaf key) fun x => .bind triple_leafId fun page => ?_
  refine .bind (triple_leafNode List.mem_cons_self).ofNode fun leaf => ?_
  exact .bind (triple_unpin (.refl _) fun e => e) fun _ => .pure fun _ h => h.unknow

end Lookup

/-! ## Insertion -/

section Insertion

variable {holds : List Hold} {known : List PageId} {leftId rightId : PageId}

theorem triple_createNewRoot (sepKey : Bytes) (hleft : leftId ∈ known) (hright : rightId ∈ known) :
    Triple (Holding true [] known) (createNewRoot leftId sepKey rightId) fun _ =>
      Holding true [] [] := by
  refine .bind (triple_newPage (by decide)) fun r => ?_
  cases r with
  | none => exact .throw _
  | some r =>
    obtain ⟨newRootId, newRootPage⟩ := r
    have hx : (⟨newRootId, newRootPage, true⟩ : Hold) ∈ [⟨newRootId, newRootPage, true⟩] :=
      List.mem_cons_self
    refine .pre ?_ fun t h => h newRootId newRootPage rfl
    refine .bind (triple_writePage hx rfl fun _ l hl => .inr (List.mem_singleton.mp hl)) fun _ => ?_
    refine .bind ((triple_setHdr hx fun n l hl => ?_).pre fun _ h _ => h) fun _ => ?_
    · cases n with
      | leaf n => exact .inl hl
      | internal n =>
        rcases List.mem_cons.mp hl with rfl | hl
        · exact .inr (List.mem_cons_of_mem _ hleft)
        · exact .inl (List.mem_cons_of_mem _ hl)
    refine .bind (triple_internalNode hx).ofNode fun newRoot => ?_
    cases hsep : newRoot.insertSeparator sepKey rightId with
    | mk ok n =>
      cases ok with
      | false => exact .throw _
      | true =>
        have hmem : ∀ i ∈ known, i ∈ links (.internal newRoot) ++ newRootId :: known :=
          fun i hi => List.mem_append_right _ (List.mem_cons_of_mem _ hi)
        refine .bind (triple_writeData hx fun _ l hl => .inl ?_) fun _ => ?_
        · rcases links_insertSeparator hsep hl with hl | rfl
          · exact List.mem_append_left _ hl
          · exact hmem _ hright
        refine .bind (triple_unpin (.refl _) fun _ => rfl) fun _ => ?_
        refine .bind (triple_updateHdr _ (by decide) (fun _ => hmem _ hleft) (hdrLinks_parent _ _))
          fun _ => ?_
        refine .bind (triple_updateHdr _ (by decide) (fun _ => hmem _ hright) (hdrLinks_parent _ _))
          fun _ => ?_
        exact (triple_setRoot fun _ => List.mem_append_right _ List.mem_cons_self).post
          fun _ _ h => h.unknow

theorem triple_addSeparator {p : FrameId} {id parentId : PageId} (sepKey : Bytes)
    (room cond : String) (hx : ⟨id, p, true⟩ ∈ holds) (hlen : holds.length < 4)
    (hright : rightId ∈ known) :
    Triple (Holding true holds known) (addSeparator p parentId sepKey rightId room cond) fun _ =>
      Holding true holds known := by
  refine .bind (triple_internalNode hx).ofNode fun n => ?_
  cases hsep : n.insertSeparator sepKey rightId with
  | mk ok n' =>
    cases ok with
    | false => exact .throw _
    | true =>
      refine .bind (triple_writeData hx fun _ l hl => .inl ?_) fun _ => ?_
      · rcases links_insertSeparator hsep hl with hl | rfl
        · exact List.mem_append_left _ hl
        · exact List.mem_append_right _ hright
      refine (triple_updateHdr cond hlen (fun _ => List.mem_append_right _ hright)
        (hdrLinks_parent _ _)).post fun _ _ h => ?_
      exact h.mono fun i hi => .inl (List.mem_append_right _ hi)

theorem triple_splitParent {p : FrameId} {parentId : PageId} (sepKey : Bytes)
    (hright : rightId ∈ known) :
    Triple (Holding true [⟨parentId, p, true⟩] known) (splitParent p parentId sepKey rightId)
      fun x => Holding true [] (x.1 :: known) := by
  refine .bind (triple_internalNode List.mem_cons_self).ofNode fun parent => ?_
  refine .bind (triple_newPage (by simp)) fun r => ?_
  cases r with
  | none => exact .throw _
  | some r =>
    obtain ⟨parentRightId, parentRightPage⟩ := r
    refine .pre ?_ fun t h => h parentRightId parentRightPage rfl
    have hr : (⟨parentRightId, parentRightPage, true⟩ : Hold) ∈
        [⟨parentRightId, parentRightPage, true⟩, ⟨parentId, p, true⟩] := List.mem_cons_self
    have hl : (⟨parentId, p, true⟩ : Hold) ∈
        [⟨parentRightId, parentRightPage, true⟩, ⟨parentId, p, true⟩] :=
      List.mem_cons_of_mem _ List.mem_cons_self
    refine .bind (triple_writePage hr rfl fun _ l hl => .inr (List.mem_singleton.mp hl)) fun _ => ?_
    refine .bind (triple_internalNode hr).ofNode fun empty => ?_
    refine .bind (.ofExcept fun x hsplit t h => And.intro hsplit h) fun x => .of_and fun hsplit => ?_
    obtain ⟨hleft', hright'⟩ := links_splitInternal hsplit
    have hparent : ∀ i ∈ links (.internal parent), i ∈ links (.internal empty) ++
        parentRightId :: (links (.internal parent) ++ known) := fun i hi =>
      List.mem_append_right _ (List.mem_cons_of_mem _ (List.mem_append_left _ hi))
    refine .bind (triple_writeData hl fun _ i hi => .inl (hparent i (hleft' i hi))) fun _ => ?_
    refine .bind (triple_writeData hr fun _ i hi => .inl (hparent i (hright' i hi))) fun _ => ?_
    let half := if sepKey < x.2.2 then
        (p, parentId, "ok && \"left half should have room after split\"")
      else (parentRightPage, parentRightId, "ok && \"right half should have room after split\"")
    have hhalf : (⟨half.2.1, half.1, true⟩ : Hold) ∈
        [⟨parentRightId, parentRightPage, true⟩, ⟨parentId, p, true⟩] := by
      dsimp only [half]
      split
      · exact hl
      · exact hr
    refine .bind (triple_addSeparator sepKey half.2.2 _ hhalf (by simp) ?_) fun _ => ?_
    · exact List.mem_append_right _ (List.mem_cons_of_mem _ (List.mem_append_right _ hright))
    refine .bind (triple_internalNode hr).ofNode fun parentRight => ?_
    refine .bind (triple_reparentAll parentRightId (by simp) fun _ i hi =>
      List.mem_append_left _ hi) fun _ => ?_
    refine .bind (triple_unpin (.swap _ _ _) fun _ => rfl) fun _ => ?_
    refine .bind (triple_unpin (.refl _) fun _ => rfl) fun _ => .pure fun _ h => ?_
    refine h.mono fun i hi => .inl (List.mem_append_right _ (List.mem_append_right _ ?_))
    rcases List.mem_cons.mp hi with rfl | hi
    · exact List.mem_cons_self
    · exact List.mem_cons_of_mem _ (List.mem_append_right _ hi)

theorem triple_insertIntoParent (sepKey : Bytes) {breadcrumbs : List PageId} (hleft : leftId ∈ known)
    (hright : rightId ∈ known) (hcrumbs : ∀ id ∈ breadcrumbs, id ∈ known) :
    Triple (Holding true [] known) (insertIntoParent leftId sepKey rightId breadcrumbs) fun _ =>
      Holding true [] [] := by
  induction breadcrumbs generalizing leftId sepKey rightId known with
  | nil => exact triple_createNewRoot sepKey hleft hright
  | cons parentId breadcrumbs ih =>
    refine .bind (triple_fetch_known _ (by decide) (hcrumbs parentId List.mem_cons_self)) fun p => ?_
    have hx : (⟨parentId, p, true⟩ : Hold) ∈ [⟨parentId, p, true⟩] := List.mem_cons_self
    refine .bind ((triple_internalNode hx).pre fun _ h _ => h.change) fun parent => ?_
    have hknown : ∀ i ∈ known, i ∈ links (.internal parent) ++ known :=
      fun i hi => List.mem_append_right _ hi
    have hadd : Triple (Holding true [⟨parentId, p, true⟩] (links (.internal parent) ++ known)) (do
        addSeparator p parentId sepKey rightId "ok" "rp != nullptr"
        unpin parentId true) fun _ => Holding true [] [] := by
      refine .bind (triple_addSeparator sepKey _ _ hx (by simp) (hknown _ hright)) fun _ => ?_
      exact (triple_unpin (.refl _) fun _ => rfl).post fun _ _ h => h.unknow
    refine .ite (fun _ => ?_) fun _ => hadd
    refine .bind (triple_writeData hx fun _ l hl => .inl (List.mem_append_left _ hl)) fun _ => ?_
    refine .ite (fun _ => ?_) fun _ => hadd
    refine .bind (triple_splitParent sepKey (hknown _ hright)) fun x => ?_
    refine ih x.2 ?_ List.mem_cons_self fun i hi => ?_
    · exact List.mem_cons_of_mem _ (hknown _ (hcrumbs parentId List.mem_cons_self))
    · exact List.mem_cons_of_mem _ (hknown i (hcrumbs i (List.mem_cons_of_mem _ hi)))

theorem triple_splitLeafPage {p : FrameId} {leafId : PageId} (key value : Bytes) :
    Triple (Holding true [⟨leafId, p, true⟩] known) (splitLeafPage p leafId key value)
      fun x => Holding true [] (x.1 :: known) := by
  refine .bind (triple_leafNode List.mem_cons_self).ofNode fun leaf => ?_
  refine .bind (triple_newPage (by simp)) fun r => ?_
  cases r with
  | none => exact .bind (fun _ _ _ _ _ => trivial) fun _ => Triple.throw (P := fun _ => True) _
  | some r =>
    obtain ⟨rightId, rightPage⟩ := r
    refine .pre ?_ fun t h => h rightId rightPage rfl
    have hr : (⟨rightId, rightPage, true⟩ : Hold) ∈
        [⟨rightId, rightPage, true⟩, ⟨leafId, p, true⟩] := List.mem_cons_self
    have hl : (⟨leafId, p, true⟩ : Hold) ∈ [⟨rightId, rightPage, true⟩, ⟨leafId, p, true⟩] :=
      List.mem_cons_of_mem _ List.mem_cons_self
    refine .bind (triple_writePage hr rfl fun _ l hl => .inr (List.mem_singleton.mp hl)) fun _ => ?_
    refine .bind (triple_leafNode hr).ofNode fun empty => ?_
    refine .bind (.ofExcept fun x hsplit t h => And.intro hsplit h) fun x => .of_and fun hsplit => ?_
    obtain ⟨hleft', hright'⟩ := Node.splitLeaf_links hsplit
    have hsib : leaf.hdr.rightSibling ∈ links (.leaf empty) ++ rightId ::
        (links (.leaf leaf) ++ known) :=
      List.mem_append_right _ (List.mem_cons_of_mem _ List.mem_cons_self)
    refine .bind (triple_writeData hl fun _ i hi => .inl ?_) fun _ => ?_
    · rw [List.mem_singleton.mp hi, hleft']
      exact List.mem_append_right _ List.mem_cons_self
    refine .bind (triple_writeData hr fun _ i hi => .inl ?_) fun _ => ?_
    · rw [List.mem_singleton.mp hi, hright']
      exact hsib
    refine .bind (triple_updateHdrIfAny _ (by simp) (fun _ => hsib) (hdrLinks_left _ _)) fun _ => ?_
    let half := if key < x.2.2 then p else rightPage
    have hhalf : ∃ id, (⟨id, half, true⟩ : Hold) ∈
        [⟨rightId, rightPage, true⟩, ⟨leafId, p, true⟩] := by
      dsimp only [half]
      split
      · exact ⟨_, hl⟩
      · exact ⟨_, hr⟩
    obtain ⟨halfId, hhalf⟩ := hhalf
    refine .bind (triple_leafNode hhalf).ofNode fun n => ?_
    refine .bind (triple_writeData hhalf fun _ i hi => .inl ?_) fun _ => ?_
    · rw [List.mem_singleton.mp hi, Node.insertLeafCell_hdr]
      exact List.mem_cons_self
    refine .bind (triple_unpin (.swap _ _ _) fun _ => rfl) fun _ => ?_
    refine .bind (triple_unpin (.refl _) fun _ => rfl) fun _ => .pure fun _ h => ?_
    refine h.mono fun i hi => .inl (List.mem_append_right _ (List.mem_append_right _ ?_))
    rcases List.mem_cons.mp hi with rfl | hi
    · exact List.mem_cons_self
    · exact List.mem_cons_of_mem _ (List.mem_append_right _ hi)

theorem triple_insert (key value : Bytes) :
    Triple (Holding true [] known) (insert key value) fun _ => Holding true [] [] := by
  refine .ite (fun _ => ?_) fun _ => .throw _
  refine .bind (triple_findLeaf key) fun x => .bind triple_leafId fun page => ?_
  have hx : (⟨page.pageId, x.1, true⟩ : Hold) ∈ [⟨page.pageId, x.1, true⟩] := List.mem_cons_self
  refine .bind ((triple_leafNode hx).pre fun _ h _ => h.change) fun leaf => ?_
  refine .bind (triple_writeData hx fun _ i hi => .inl ?_) fun _ => ?_
  · rw [List.mem_singleton.mp hi]
    change (leaf.insertLeafCell key value).2.hdr.rightSibling ∈ _
    rw [Node.insertLeafCell_hdr]
    exact List.mem_cons_self
  refine .ite (fun _ => ?_) fun _ => ?_
  · exact (triple_unpin (.refl _) fun _ => rfl).post fun _ _ h => h.unknow
  · refine .bind (triple_splitLeafPage key value) fun y => ?_
    refine triple_insertIntoParent y.2 ?_ List.mem_cons_self fun i hi => ?_
    · exact List.mem_cons_of_mem _ (List.mem_append_right _ List.mem_cons_self)
    · exact List.mem_cons_of_mem _ (List.mem_append_right _ (List.mem_cons_of_mem _ hi))

end Insertion

/-! ## Removal -/

section Removal

variable {holds : List Hold} {known : List PageId}

/-- Without new pages it does not matter what a page refers to. -/
theorem triple_store {p : FrameId} {id : PageId} (data : Content) (hx : ⟨id, p, true⟩ ∈ holds) :
    Triple (Holding false holds known) (writeData p data) fun _ => Holding false holds known :=
  triple_writeData hx fun e => by cases e

theorem triple_collapseInto {newRoot oldRoot : PageId} (cond : String) :
    Triple (Holding false [] known) (collapseInto newRoot oldRoot cond) fun _ =>
      Holding false [] [] := by
  refine .bind (triple_updateHdr cond (by decide) (fun e => by cases e) (hdrLinks_parent _ _))
    fun _ => ?_
  exact .bind triple_deletePage fun _ => triple_setRoot fun e => by cases e

theorem triple_fixRoot {pageId : PageId} (hid : pageId ∈ known) :
    Triple (Holding false [] known) (fixRoot pageId) fun _ => Holding false [] [] := by
  refine .bind (triple_fetch_known _ (by decide) hid) fun p => ?_
  have hunpin : Triple (Holding false [⟨pageId, p, false⟩] known) (unpin pageId false)
      fun _ => Holding false [] [] :=
    (triple_unpin (.refl _) fun e => e).post fun _ _ h =>
      h.unknow
  refine .bind ((triple_readPage List.mem_cons_self).post fun _ _ h => h.2) fun page => ?_
  cases page.data with
  | internal root =>
    refine .ite (fun _ => .bind hunpin fun _ => ?_) fun _ => hunpin
    exact .ite (fun _ => triple_collapseInto _) fun _ => .pure fun _ h => h
  | leaf n => exact hunpin
  | zero => exact hunpin
  | header d => exact hunpin

section Steal

variable {cur sib : FrameId} {curId sibId : PageId} (hcur : ⟨curId, cur, true⟩ ∈ holds)
  (hsib : ⟨sibId, sib, true⟩ ∈ holds)

include hcur hsib

/-- Both ways of stealing write two leaves. -/
theorem triple_stealLeaf (e : Except Exn (Node Bytes × Node Bytes × Bytes)) :
    Triple (Holding false holds known) (do
      let (n, m, newSep) ← ofExcept e
      writeData sib (.leaf m)
      writeData cur (.leaf n)
      return newSep) fun _ => Holding false holds known := by
  refine .bind (.ofExcept fun _ _ _ h => h) fun x => ?_
  exact .bind (triple_store _ hsib) fun _ => .bind (triple_store _ hcur) fun _ => .pure fun _ h => h

/-- Or two internal nodes, and the child that moved gets its new parent. -/
theorem triple_stealInternal (hlen : holds.length < 4)
    (e : Except Exn (Node PageId × Node PageId × Bytes × PageId)) :
    Triple (Holding false holds known) (do
      let (n, m, newSep, stolenChild) ← ofExcept e
      writeData sib (.internal m)
      writeData cur (.internal n)
      reparent (← readPage cur).pageId stolenChild
      return newSep) fun _ => Holding false holds known := by
  refine .bind (.ofExcept fun _ _ _ h => h) fun x => ?_
  refine .bind (triple_store _ hsib) fun _ => .bind (triple_store _ hcur) fun _ => ?_
  refine .bind ((triple_readPage hcur).post fun _ _ h => h.2) fun page => ?_
  exact .bind (triple_reparent _ hlen fun e => by cases e) fun _ => .pure fun _ h => h

theorem triple_stealFromLeft (hlen : holds.length < 4) :
    Triple (Holding false holds known) (stealFromLeft cur sib) fun _ =>
      Holding false holds known := by
  refine .bind (triple_node hcur).ofNode fun n => ?_
  refine .bind (triple_node hsib).ofNode fun m => ?_
  cases n with
  | leaf n =>
    cases m with
    | leaf m => exact triple_stealLeaf hcur hsib _
    | internal m => exact .throw _
  | internal n =>
    cases m with
    | leaf m => exact .throw _
    | internal m => exact triple_stealInternal hcur hsib hlen _

theorem triple_stealFromRight (hlen : holds.length < 4) :
    Triple (Holding false holds known) (stealFromRight cur sib) fun _ =>
      Holding false holds known := by
  refine .bind (triple_node hcur).ofNode fun n => ?_
  refine .bind (triple_node hsib).ofNode fun m => ?_
  cases n with
  | leaf n =>
    cases m with
    | leaf m => exact triple_stealLeaf hcur hsib _
    | internal m => exact .throw _
  | internal n =>
    cases m with
    | leaf m => exact .throw _
    | internal m => exact triple_stealInternal hcur hsib hlen _

end Steal

/-- A step that was not taken leaves the parent pinned, and the sibling known. -/
theorem triple_borrow {steal : FrameId → FrameId → BTreeM Watched Bytes} {p : FrameId}
    {parentId pageId sib : PageId} (sepSlot : Nat) (cond : String)
    (hsteal : ∀ {holds : List Hold} {cur q : FrameId} {curId qId : PageId},
      ⟨curId, cur, true⟩ ∈ holds → ⟨qId, q, true⟩ ∈ holds → holds.length < 4 →
        Triple (Holding false holds (sib :: known)) (steal cur q) fun _ =>
          Holding false holds (sib :: known))
    (hid : pageId ∈ known) :
    Triple (Holding false [⟨parentId, p, false⟩] known)
      (borrow steal p parentId pageId sib sepSlot cond) fun taken t =>
        if taken then Holding false [] [] t
        else Holding false [⟨parentId, p, false⟩] (sib :: known) t := by
  refine .ite (fun hsib => .pure fun t h => ?_) fun _ => ?_
  · refine h.mono fun i hi => ?_
    rcases List.mem_cons.mp hi with rfl | hi
    · exact .inr hsib
    · exact .inl hi
  refine .bind (triple_fetch cond (by simp) fun e => by cases e) fun q => ?_
  refine .bind (triple_node List.mem_cons_self) fun n => ?_
  refine .ite (fun _ => ?_) fun _ => ?_
  · exact .bind (triple_unpin (.refl _) fun e => e) fun _ => .pure fun _ h => h
  refine .bind (triple_fetch_known _ (by simp) (List.mem_cons_of_mem _ hid)) fun c => ?_
  have hcur : (⟨pageId, c, true⟩ : Hold) ∈
      [⟨pageId, c, true⟩, ⟨sib, q, true⟩, ⟨parentId, p, true⟩] := List.mem_cons_self
  have hq : (⟨sib, q, true⟩ : Hold) ∈
      [⟨pageId, c, true⟩, ⟨sib, q, true⟩, ⟨parentId, p, true⟩] :=
    List.mem_cons_of_mem _ List.mem_cons_self
  have hp : (⟨parentId, p, true⟩ : Hold) ∈
      [⟨pageId, c, true⟩, ⟨sib, q, true⟩, ⟨parentId, p, true⟩] :=
    List.mem_cons_of_mem _ (List.mem_cons_of_mem _ List.mem_cons_self)
  refine .bind ((hsteal hcur hq (by simp)).pre fun _ h => h.changeAll) fun newSep => ?_
  refine .bind (triple_internalNode hp).ofNode fun parent => ?_
  refine .bind (.ofExcept fun _ _ _ h => h) fun parent => .bind (triple_store _ hp) fun _ => ?_
  refine .bind (triple_unpin (.refl _) fun _ => rfl) fun _ => ?_
  refine .bind (triple_unpin (.refl _) fun _ => rfl) fun _ => ?_
  exact .bind (triple_unpin (.refl _) fun _ => rfl) fun _ => .pure fun _ h => h.unknow

theorem triple_mergeFrom {left right : FrameId} {leftId rightId : PageId} (sep : Bytes)
    (hleft : ⟨leftId, left, true⟩ ∈ holds) (hright : ⟨rightId, right, true⟩ ∈ holds)
    (hlen : holds.length < 4) :
    Triple (Holding false holds known) (mergeFrom left right sep) fun _ =>
      Holding false holds known := by
  refine .bind (triple_node hleft).ofNode fun n => ?_
  refine .bind (triple_node hright).ofNode fun m => ?_
  cases n with
  | leaf n =>
    cases m with
    | leaf m => exact .bind (.ofExcept fun _ _ _ h => h) fun x => triple_store _ hleft
    | internal m => exact .throw _
  | internal n =>
    cases m with
    | leaf m => exact .throw _
    | internal m =>
      refine .bind (.ofExcept fun _ _ _ h => h) fun x => .bind (triple_store _ hleft) fun _ => ?_
      refine .bind ((triple_readPage hleft).post fun _ _ h => h.2) fun page => ?_
      exact triple_reparentAll _ hlen fun e => by cases e

theorem triple_relinkRight {left : FrameId} {leftId id : PageId} (hleft : ⟨leftId, left, true⟩ ∈ holds)
    (hlen : holds.length < 4) :
    Triple (Holding false holds known) (relinkRight left id) fun _ => Holding false holds known := by
  refine .bind (triple_node hleft).ofNode fun n => ?_
  cases n with
  | leaf n => exact triple_updateHdrIfAny _ hlen (fun e => by cases e) (hdrLinks_left _ _)
  | internal n => exact .pure fun _ h => h

/-- Where the parent is to be repaired as well, it is known. -/
theorem triple_mergePages {p : FrameId} {parentId leftId rightId : PageId} (sepSlot : Nat)
    (hleft : leftId ∈ known) (hright : rightId ∈ known) :
    Triple (Holding false [⟨parentId, p, false⟩] known)
      (mergePages p parentId leftId rightId sepSlot) fun again =>
        Holding false [] (if again then [parentId] else []) := by
  refine .bind (triple_fetch_known _ (by simp) hleft) fun l => ?_
  refine .bind (triple_fetch_known _ (by simp) hright) fun r => ?_
  have hr : (⟨rightId, r, true⟩ : Hold) ∈
      [⟨rightId, r, true⟩, ⟨leftId, l, true⟩, ⟨parentId, p, true⟩] := List.mem_cons_self
  have hl : (⟨leftId, l, true⟩ : Hold) ∈
      [⟨rightId, r, true⟩, ⟨leftId, l, true⟩, ⟨parentId, p, true⟩] :=
    List.mem_cons_of_mem _ List.mem_cons_self
  have hp : (⟨parentId, p, true⟩ : Hold) ∈
      [⟨rightId, r, true⟩, ⟨leftId, l, true⟩, ⟨parentId, p, true⟩] :=
    List.mem_cons_of_mem _ (List.mem_cons_of_mem _ List.mem_cons_self)
  refine .bind ((triple_internalNode hp).pre fun _ h _ => h.changeAll) fun parent => ?_
  refine .bind (.ofExcept fun _ _ _ h => h) fun sep => ?_
  refine .bind (triple_mergeFrom sep hl hr (by simp)) fun _ => ?_
  refine .bind (triple_relinkRight hl (by simp)) fun _ => ?_
  refine .bind (triple_internalNode hp).ofNode fun parent => ?_
  refine .bind (triple_store _ hp) fun _ => ?_
  refine .bind (triple_unpin (.swap _ _ _) fun _ => rfl) fun _ => ?_
  refine .bind (triple_unpin (.refl _) fun _ => rfl) fun _ => .bind triple_deletePage fun _ => ?_
  refine .get_bind fun t h => ?_
  -- the parent is still pinned, so it was not the page that went
  refine .pre ?_ fun s e => e ▸ h.know List.mem_cons_self
  refine .bind (triple_unpin (.refl _) fun _ => rfl) fun _ => ?_
  refine .ite (fun _ => .pure fun _ h => h) fun _ => .ite (fun _ => ?_) fun _ => ?_
  · exact .bind (triple_collapseInto _) fun _ => .pure fun _ h => h
  · exact .pure fun _ h => h.unknow

theorem triple_fixUnderflow {pageId : PageId} (breadcrumbs : List PageId) (hid : pageId ∈ known) :
    Triple (Holding false [] known) (fixUnderflow pageId breadcrumbs) fun _ =>
      Holding false [] [] := by
  induction breadcrumbs generalizing pageId known with
  | nil => exact triple_fixRoot hid
  | cons parentId breadcrumbs ih =>
    refine .bind (triple_fetch _ (by decide) fun e => by cases e) fun p => ?_
    refine .bind (triple_internalNode List.mem_cons_self) fun parent => ?_
    refine .bind (.ofExcept fun _ _ _ h => h) fun pos => ?_
    have hpage : pageId ∈ parentId :: known := List.mem_cons_of_mem _ hid
    refine .bind (triple_borrow pos.sepSlot _ triple_stealFromLeft hpage) fun taken => ?_
    cases taken with
    | true => exact .ite (fun _ => .pure fun _ h => h) fun hnot => absurd rfl hnot
    | false =>
      refine .ite (fun htaken => absurd htaken Bool.false_ne_true) fun _ => ?_
      have hpage : pageId ∈ pos.leftSib :: parentId :: known := List.mem_cons_of_mem _ hpage
      refine .bind (triple_borrow pos.sepSlot _ triple_stealFromRight hpage) fun taken => ?_
      cases taken with
      | true => exact .ite (fun _ => .pure fun _ h => h) fun hnot => absurd rfl hnot
      | false =>
        refine .ite (fun htaken => absurd htaken Bool.false_ne_true) fun _ => ?_
        have hpage : pageId ∈ pos.rightSib :: pos.leftSib :: parentId :: known :=
          List.mem_cons_of_mem _ hpage
        have hleft : pos.leftSib ∈ pos.rightSib :: pos.leftSib :: parentId :: known :=
          List.mem_cons_of_mem _ List.mem_cons_self
        have hagain : ∀ again : Bool, Triple (Holding false [] (if again then [parentId] else []))
            (if again then fixUnderflow parentId breadcrumbs else Pure.pure ()) fun _ =>
              Holding false [] [] := by
          intro again
          cases again with
          | true => exact ih List.mem_cons_self
          | false => exact .pure fun _ h => h
        refine .ite (fun _ => ?_) fun _ => .ite (fun _ => ?_) fun _ => ?_
        · exact .bind (triple_mergePages pos.sepSlot hpage List.mem_cons_self) hagain
        · exact .bind (triple_mergePages (leftMergeSlot parent pos.leftSib pageId) hleft hpage) hagain
        · exact (triple_unpin (.refl _) fun e => e).post fun _ _ h => h.unknow

theorem triple_remove (key : Bytes) :
    Triple (Holding false [] known) (remove key) fun _ => Holding false [] [] := by
  refine .bind (triple_findLeaf key) fun x => .bind triple_leafId fun page => ?_
  refine .bind (triple_leafNode List.mem_cons_self).ofNode fun leaf => ?_
  refine .ite (fun _ => ?_) fun _ => ?_
  · refine .bind ((triple_store _ List.mem_cons_self).pre fun _ h => h.change) fun _ => ?_
    refine .get_bind fun t h => ?_
    refine .pre ?_ fun s e => e ▸ h
    refine .bind (triple_unpin (.refl _) fun _ => rfl) fun _ => .ite (fun _ => ?_) fun _ => ?_
    · exact .bind (triple_fixUnderflow x.2 List.mem_cons_self) fun _ => .pure fun _ h => h
    · exact .pure fun _ h => h.unknow
  · exact .bind (triple_unpin (.refl _) fun e => e) fun _ => .pure fun _ h => h.unknow

end Removal

/-! ## Whole calls -/

/-- A well-formed tree on which nothing is pinned: the pool and the file have its pages, none of
them is free, and what the root and the pages refer to are pages of the tree. -/
def Intact (t : BTree (BufferPool Content)) : Prop :=
  ∃ pages, Tracked pages [] t.store ∧ Whole pages t.rootPageId t.store.disk

theorem Intact.holding {t : BTree (BufferPool Content)} (h : Intact t) :
    Holding true [] [] (watch t) := by
  obtain ⟨pages, htracked, hwhole⟩ := h
  exact ⟨pages, htracked, fun _ => hwhole, fun _ hi => absurd hi List.not_mem_nil, Nat.zero_le _,
    Nat.zero_le _, (fun _ hn => absurd hn List.not_mem_nil), fun _ _ e => by cases e⟩

theorem Holding.intact {known : List PageId} {w : BTree Watched} (h : Holding true [] known w) :
    Intact (unwatched w) := by
  obtain ⟨pages, h⟩ := h
  exact ⟨pages, h.tracked, h.whole rfl⟩

theorem triple_create : Triple (Holding true [] []) create fun _ => Holding true [] [] := by
  refine .bind (triple_newPage (by decide)) fun r => ?_
  cases r with
  | none => exact .throw _
  | some r =>
    obtain ⟨rootId, rootPage⟩ := r
    refine .pre ?_ fun t h => h rootId rootPage rfl
    refine .bind (triple_writePage List.mem_cons_self rfl fun _ l hl =>
      .inr (List.mem_singleton.mp hl)) fun _ => ?_
    refine .bind (triple_unpin (.refl _) fun _ => rfl) fun _ => ?_
    exact (triple_setRoot fun _ => List.mem_cons_self).post fun _ _ h => h.unknow

theorem triple_perform (c : TreeCall) :
    Triple (Holding true [] []) (perform c) fun _ => Holding false [] [] := by
  cases c with
  | get key => exact .bind (triple_get key) fun _ => .pure fun _ h => h.forget
  | insert key value => exact (triple_insert key value).post fun _ _ h => h.forget
  | remove key => exact .bind ((triple_remove key).pre fun _ h => h.forget) fun _ => .pure fun _ h => h

/-- Lookup and insertion leave a tree that is as good as before. -/
theorem Intact.perform {c : TreeCall} {t t' : BTree (BufferPool Content)} (h : Intact t)
    (hc : ∀ key, c ≠ .remove key) (hrun : exec (perform c) t = (.ok (), t')) : Intact t' := by
  obtain ⟨w, hexec, rfl⟩ := perform_watched c hrun
  have htriple : Triple (Holding true [] []) (BTree.perform c) fun _ => Holding true [] [] := by
    cases c with
    | get key => exact .bind (triple_get key) fun _ => .pure fun _ h => h
    | insert key value => exact triple_insert key value
    | remove key => exact absurd rfl (hc key)
  exact (htriple _ h.holding _ _ hexec).intact

end BTree

namespace BufferPool

variable {δ : Type}

/-- What was put into a page is in a dirty frame, so that it is written back when the frame is
recycled, or it is in the file. -/
def Saved (p : BufferPool δ) (id : PageId) (page : Page δ) : Prop :=
  (∃ f, p.pageTable.lookup id = some f ∧ (p.frames f).page = page ∧ (p.frames f).isDirty = true) ∨
    p.disk.file id = page

end BufferPool

namespace BTree

theorem Tracked.saved {pages : Pages} {p : BufferPool Content} (h : Tracked pages [] p)
    {id : PageId} {page : Page Content} (hpage : pages id = some page) : p.Saved id page := by
  have hlive : (pages id).isSome := by rw [hpage]; rfl
  cases hid : p.pageTable.lookup id with
  | none =>
    have himage := h.coherent.absent hlive hid
    exact .inr (Option.some.inj (himage.1.symm.trans hpage))
  | some f =>
    have hfiled := h.coherent.filed hid
    cases hdirty : (p.frames f).isDirty with
    | true => exact .inl ⟨f, hid, Option.some.inj (hfiled.image.1.symm.trans hpage), hdirty⟩
    | false =>
      have himage := hfiled.clean hdirty fun ⟨_, hx, _⟩ => absurd hx List.not_mem_nil
      exact .inr (Option.some.inj (himage.1.symm.trans hpage))

/-- **Pins and dirty pages.** A call on an intact tree that returns leaves nothing pinned. On the way
there were never more than four pins, each page that was deleted was not pinned, and what was last
put into a page that was not deleted is in a dirty frame or in the file. -/
theorem pin_discipline (c : TreeCall) {t t' : BTree (BufferPool Content)} (h : Intact t)
    (hrun : exec (perform c) t = (.ok (), t')) :
    (∀ f, (t'.store.frames f).pinCount = 0) ∧
      ∃ w, exec (perform c) (watch t) = (.ok (), w) ∧ unwatched w = t' ∧ w.store.peak ≤ 4 ∧
        (∀ n ∈ w.store.deleted, n = 0) ∧
        ∀ id page, w.store.written id = some page → t'.store.Saved id page := by
  obtain ⟨w, hexec, rfl⟩ := perform_watched c hrun
  obtain ⟨pages, hw⟩ := triple_perform c _ h.holding _ _ hexec
  refine ⟨fun f => ?_, w, hexec, rfl, hw.peak, hw.deleted, fun id page hpage => ?_⟩
  · exact hw.tracked.pinCount f
  · exact hw.tracked.saved (hw.written id page hpage)

/-- A new file, before there is a tree. -/
theorem intact_new :
    Intact { store := BufferPool.init (exec Disk.loadNew (Disk.empty : Disk Content)).2 } := by
  have hnone : ∀ id, ¬ (((fun _ => none) : Pages) id).isSome = true := fun _ => Bool.false_ne_true
  refine ⟨fun _ => none, ⟨?_, fun id hid => absurd hid (hnone id), fun f hf => absurd rfl hf, ?_⟩,
    ⟨⟨List.nodup_nil, ?_, fun id hid => ?_, Nat.zero_le _, fun _ => rfl, Nat.one_pos⟩,
      fun hne => absurd rfl hne, fun _ _ e => by cases e⟩⟩
  · exact .init (fun id hid => absurd hid (hnone id)) fun id f ⟨_, hx, _⟩ => absurd hx List.not_mem_nil
  · have hempty : (Disk.empty : Disk Content).Signed := fun _ hnode => by cases hnode
    exact (hempty.write fun hnode => by cases hnode).write fun hnode => by cases hnode
  · exact fun id hid => absurd hid List.not_mem_nil
  · exact hid.elim (fun hid => absurd hid (hnone id)) fun hid => absurd hid List.not_mem_nil

/-- A tree that was just created is intact. -/
theorem intact_created : Intact created := by
  have hcreate : exec create
      { store := BufferPool.init (exec Disk.loadNew (Disk.empty : Disk Content)).2 } =
        (.ok (), created) := by
    refine exec_eq_of_isOk ?_
    decide +kernel
  obtain ⟨w, hexec, hw⟩ := exec_watched respected_erases.create hcreate
  rw [← hw]
  exact (triple_create _ intact_new.holding _ _ hexec).intact

/-- The tree after a call that returns. -/
def returned (t : BTree (BufferPool Content)) (c : TreeCall) :
    Option (BTree (BufferPool Content)) :=
  match exec (perform c) t with
  | (.ok _, t') => some t'
  | (.error _, _) => none

theorem returned_eq_some {t t' : BTree (BufferPool Content)} {c : TreeCall}
    (h : returned t c = some t') : exec (perform c) t = (.ok (), t') := by
  unfold returned at h
  split at h
  · next heq =>
    cases h
    exact heq
  · cases h

/-- Any number of lookups and insertions leave an intact tree. -/
theorem Intact.run {calls : List TreeCall} {t t' : BTree (BufferPool Content)} (h : Intact t)
    (hcalls : ∀ c ∈ calls, ∀ key, c ≠ .remove key) (hrun : run returned t calls = some t') :
    Intact t' := by
  have hsteps : Steps returned (fun _ c => ∀ key, c ≠ TreeCall.remove key) t calls :=
    steps_of_mem (fun _ c hc => hcalls c hc) t
  refine run_inv (fun s c s' hs hc hstep => ?_) h hsteps hrun
  exact hs.perform hc (returned_eq_some hstep)

/-- Four keys with values of 1500 bytes, the largest first: two leaves are split. -/
def fourKeys : List TreeCall := [4, 3, 2, 1].map fun k => .insert [k] (List.replicate 1500 0)

/-- The key 4 is removed: its page is merged into the one on its left and deleted. -/
theorem pin_discipline_merge :
    ∃ t t', run returned created fourKeys = some t ∧ exec (perform (.remove [4])) t = (.ok (), t') ∧
      t'.store.disk.freePages = [2] ∧ (∀ f, (t'.store.frames f).pinCount = 0) ∧
      ∃ w, exec (perform (.remove [4])) (watch t) = (.ok (), w) ∧ unwatched w = t' ∧
        w.store.peak ≤ 4 ∧ (∀ n ∈ w.store.deleted, n = 0) ∧
        ∀ id page, w.store.written id = some page → t'.store.Saved id page := by
  have hcheck : (run returned created fourKeys).map (fun t =>
      ((exec (perform (.remove [4])) t).1.isOk,
        (exec (perform (.remove [4])) t).2.store.disk.freePages)) = some (true, [2]) := by
    decide +kernel
  obtain ⟨t, hrun, ht⟩ := Option.map_eq_some_iff.mp hcheck
  obtain ⟨hok, hfree⟩ := Prod.mk.inj ht
  have hremove := exec_eq_of_isOk hok
  have hintact : Intact t := by
    refine intact_created.run (fun c hc key e => ?_) hrun
    obtain ⟨k, -, rfl⟩ := List.mem_map.mp hc
    cases e
  exact ⟨t, _, hrun, hremove, hfree, pin_discipline _ hintact hremove⟩

end BTree

end KeyVDB
