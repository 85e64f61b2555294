import KeyVDB.BTree.Paired

/-!
# The tree on the pool

Every function of the tree does on the pool what it does on a `Store`, or it fails because too many
frames were lost. The functions are followed call by call with the rules for the calls of the pool.
That an id is that of a page in use is known where the tree on the store reads a node from it.
-/

namespace KeyVDB

open BufferPool (Hold)

namespace BTree

variable {allowed : List PageId → Int} {opened : Nat} {holds holds' : List Hold}
  {known : List PageId} {id : PageId} {f : FrameId} {b dirty : Bool}

/-! ## The calls of the pool -/

theorem exec_fetch_store {cond : String} {t t' : BTree Store} {p : PageId}
    (h : exec (fetch id cond) t = (.ok p, t')) :
    p = id ∧ t' = { t with store := { t.store with pins := id ::ₘ t.store.pins } } := by
  by_cases hrange : id < 0 ∨ (t.store.numPages : Int) ≤ id
  · have hpage : ∃ e, exec (Store.fetchPage id) t.store = (.error e, t.store) := by
      simp only [Store.fetchPage, exec_get_bind, if_pos hrange, exec_throw]
      exact ⟨_, rfl⟩
    obtain ⟨e, hpage⟩ := hpage
    rw [fetch, exec_bind_error (exec_onStore (x := PageStore.fetchPage id) hpage)] at h
    cases h
  · have hpage : exec (Store.fetchPage id) t.store =
        (.ok (some id), { t.store with pins := id ::ₘ t.store.pins }) := by
      simp only [Store.fetchPage, exec_get_bind, if_neg hrange, exec_set_bind, exec_pure]
    rw [fetch, exec_bind_ok (exec_onStore (x := PageStore.fetchPage id) hpage)] at h
    cases h
    exact ⟨rfl, rfl⟩

/-- A page is fetched that is known, or that must be a node for the call to return. -/
theorem follows_fetch_bind {α β : Type} {k : PageId → BTreeM Store α}
    {k' : FrameId → BTreeM (BufferPool Content) β}
    {Q : α → β → BTree Store → BTree (BufferPool Content) → Prop} (cond : String)
    (hlen : holds.length < 4) (hid : id ∈ known ∨ Needs id (k id))
    (hk : ∀ f, Follows (Exhausted allowed) (Paired allowed opened (⟨id, f, false⟩ :: holds) (id :: known))
      (k id) (k' f) Q) :
    Follows (Exhausted allowed) (Paired allowed opened holds known) (fetch id cond >>= k)
      (fetch id cond >>= k') Q := by
  intro t u h a t' hexec
  rw [exec_bind] at hexec
  split at hexec
  · next p t₁ hfetch =>
    obtain ⟨rfl, rfl⟩ := exec_fetch_store hfetch
    have hin : t.store.InUse p := by
      rcases hid with hid | hneed
      · exact h.known p hid
      · by_contra hnot
        have hnode := hneed _ _ _ hexec
        rw [h.blank p hnot] at hnode
        cases hnode
    rcases h.fetch cond hin hlen with ⟨f, u', hfetch', hpaired⟩ | ⟨e, u', herr, hlost⟩
    · rw [exec_bind_ok hfetch']
      exact hk f _ u' hpaired a t' hexec
    · rw [exec_bind_error herr]
      exact .inr ⟨e, u', rfl, hlost⟩
  · cases hexec

theorem follows_unpin (hholds : holds.Perm (⟨id, f, b⟩ :: holds')) (hdirty : b = true → dirty = true) :
    Follows (Exhausted allowed) (Paired allowed opened holds known) (unpin id dirty) (unpin id dirty)
      fun _ _ => Paired allowed opened holds' known := by
  rintro t u h _ _ ⟨⟩
  obtain ⟨u', hexec, hpaired⟩ := h.unpin hholds hdirty
  exact .inl ⟨(), u', hexec, hpaired⟩

theorem follows_readPage (hx : ⟨id, f, b⟩ ∈ holds) :
    Follows (Exhausted allowed) (Paired allowed opened holds known) (readPage id) (readPage f)
      fun page page' t u => page = page' ∧ page.pageId = id ∧
        Paired allowed opened holds known t u := by
  rintro t u h _ _ ⟨⟩
  have hpage : t.store.pages id = (u.store.frames f).page := h.page_eq hx
  refine .inl ⟨_, u, rfl, hpage, ?_, h⟩
  change (t.store.pages id).pageId = id
  rw [hpage]
  exact h.tracked.header hx

theorem follows_writePage {page : Page Content} (hx : ⟨id, f, true⟩ ∈ holds)
    (hpage : page.pageId = id) :
    Follows (Exhausted allowed) (Paired allowed opened holds known) (writePage id page) (writePage f page)
      fun _ _ => Paired allowed opened holds known :=
  .modify fun _ _ h => h.write hx hpage

theorem follows_writeData (data : Content) (hx : ⟨id, f, true⟩ ∈ holds) :
    Follows (Exhausted allowed) (Paired allowed opened holds known) (writeData id data) (writeData f data)
      fun _ _ => Paired allowed opened holds known := by
  refine .seq (follows_readPage hx) fun page => .of_and fun hpage => ?_
  exact follows_writePage hx hpage

theorem follows_newPage_bind {α β : Type} {k : Option (PageId × PageId) → BTreeM Store α}
    {k' : Option (PageId × FrameId) → BTreeM (BufferPool Content) β}
    {Q : α → β → BTree Store → BTree (BufferPool Content) → Prop} (hlen : holds.length < 4)
    (hallowed : ∀ free, allowed free ≤ allowed free.dropLast)
    (hk : ∀ id f, Follows (Exhausted allowed)
      (Paired allowed opened (⟨id, f, true⟩ :: holds) (id :: known))
      (k (some (id, id))) (k' (some (id, f))) Q) :
    Follows (Exhausted allowed) (Paired allowed opened holds known) (onStore PageStore.newPage >>= k)
      (onStore PageStore.newPage >>= k') Q := by
  intro t u h a t' hexec
  rcases h.new hlen hallowed with ⟨id, f, u', s', hnew, hnew', hpaired⟩ | ⟨e, u', herr, hlost⟩
  · rw [exec_bind_ok (exec_onStore (x := PageStore.newPage) hnew)] at hexec
    rw [exec_bind_ok hnew']
    exact hk id f _ u' hpaired a t' hexec
  · rw [exec_bind_error herr]
    exact .inr ⟨e, u', rfl, hlost⟩

/-- The page was in use; nothing need be known of the others after it is gone. -/
theorem follows_deletePage (hid : id ∈ known)
    (hallowed : ∀ free, allowed free + 1 ≤ allowed (free ++ [id])) :
    Follows (Exhausted allowed) (Paired allowed opened holds known) (onStore (PageStore.deletePage id))
      (onStore (PageStore.deletePage id)) fun _ _ => Paired allowed opened holds [] := by
  intro t u h a t' hexec
  by_cases hpin : id ∈ t.store.pins
  · have hdel : exec (Store.deletePage id) t.store =
        (.error (.assertion "f.pin_count == 0"), t.store) := by
      simp only [Store.deletePage, exec_get_bind, if_pos hpin, exec_throw]
    rw [exec_onStore (x := PageStore.deletePage id) hdel] at hexec
    cases hexec
  by_cases hfull : MAX_FREE_PAGES ≤ t.store.freePages.length
  · have hdel : exec (Store.deletePage id) t.store =
        (.error (.assertion "free_pages_.size() < MAX_FREE_PAGES"), t.store) := by
      simp only [Store.deletePage, exec_get_bind, if_neg hpin, if_pos hfull, exec_throw]
    rw [exec_onStore (x := PageStore.deletePage id) hdel] at hexec
    cases hexec
  have hdel : exec (Store.deletePage id) t.store = (.ok (), { t.store with
      pages := Function.update t.store.pages id Page.clear
      freePages := t.store.freePages ++ [id] }) := by
    simp only [Store.deletePage, exec_get_bind, if_neg hpin, if_neg hfull, exec_set]
  rw [exec_onStore (x := PageStore.deletePage id) hdel] at hexec
  cases hexec
  obtain ⟨u', hexec', hpaired⟩ := h.delete (h.known id hid) hpin (Nat.not_le.mp hfull) hallowed
  exact .inl ⟨(), u', hexec', hpaired⟩

theorem follows_setRoot :
    Follows (Exhausted allowed) (Paired allowed opened holds known) (setRoot id) (setRoot id)
      fun _ _ => Paired allowed opened holds known := by
  intro t u h a t' hexec
  obtain ⟨u', hexec', hpaired⟩ := h.moveRoot id
  have hpos : t.store.numPages ≠ 0 := by
    rw [← h.accounts.numPages]
    exact h.accounts.accounted.header.ne'
  have hset : exec (Store.setRootPageId id) t.store = (.ok (), { t.store with rootId := id }) := by
    simp only [Store.setRootPageId, exec_get_bind, if_neg hpos, exec_set]
  have hstore : exec (setRoot id) t = (.ok (),
      { t with rootPageId := id, store := { t.store with rootId := id } }) :=
    exec_onStore (x := PageStore.setRootPageId id) (t := { t with rootPageId := id }) hset
  rw [hstore] at hexec
  cases hexec
  exact .inl ⟨(), u', hexec', hpaired⟩

/-! ## Pages and nodes -/

theorem follows_node (hx : ⟨id, f, b⟩ ∈ holds) :
    Follows (Exhausted allowed) (Paired allowed opened holds known) (node id) (node f)
      fun n n' t u => n = n' ∧ Paired allowed opened holds known t u := by
  refine .seq (follows_readPage hx) fun page => .pre ?_ fun t u h => h.2
  cases page.data with
  | leaf n => exact .pure fun t u h => ⟨rfl, h⟩
  | internal n => exact .pure fun t u h => ⟨rfl, h⟩
  | zero => exact .throw _
  | header d => exact .throw _

theorem follows_leafNode (hx : ⟨id, f, b⟩ ∈ holds) :
    Follows (Exhausted allowed) (Paired allowed opened holds known) (leafNode id) (leafNode f)
      fun n n' t u => n = n' ∧ Paired allowed opened holds known t u := by
  refine .seq (follows_node hx) fun n => ?_
  cases n with
  | leaf n => exact .pure fun t u h => ⟨rfl, h⟩
  | internal n => exact .throw _

theorem follows_internalNode (hx : ⟨id, f, b⟩ ∈ holds) :
    Follows (Exhausted allowed) (Paired allowed opened holds known) (internalNode id) (internalNode f)
      fun n n' t u => n = n' ∧ Paired allowed opened holds known t u := by
  refine .seq (follows_node hx) fun n => ?_
  cases n with
  | leaf n => exact .throw _
  | internal n => exact .pure fun t u h => ⟨rfl, h⟩

theorem follows_setHdr (g : NodeHeader → NodeHeader) (hx : ⟨id, f, true⟩ ∈ holds) :
    Follows (Exhausted allowed) (Paired allowed opened holds known) (setHdr id g) (setHdr f g)
      fun _ _ => Paired allowed opened holds known :=
  .seq (follows_node hx) fun _ => follows_writeData _ hx

theorem follows_updateHdr (cond : String) (g : NodeHeader → NodeHeader) (hlen : holds.length < 4) :
    Follows (Exhausted allowed) (Paired allowed opened holds known) (updateHdr id cond g) (updateHdr id cond g)
      fun _ _ => Paired allowed opened holds known := by
  have hneed : Needs id (setHdr id g >>= fun _ => unpin id true : BTreeM Store Unit) :=
    ((needs_node id).bind _).bind _
  refine follows_fetch_bind cond hlen (.inr hneed) fun f => ?_
  refine .bind ((follows_setHdr g List.mem_cons_self).pre fun _ _ h => h.change) fun _ _ => ?_
  refine (follows_unpin (.refl _) fun _ => rfl).post fun _ _ _ _ h => ?_
  exact h.mono fun i hi => List.mem_cons_of_mem _ hi

theorem follows_updateHdrIfAny (cond : String) (g : NodeHeader → NodeHeader)
    (hlen : holds.length < 4) :
    Follows (Exhausted allowed) (Paired allowed opened holds known) (updateHdrIfAny id cond g)
      (updateHdrIfAny id cond g) fun _ _ => Paired allowed opened holds known :=
  .ite (fun _ => .pure fun _ _ h => h) fun _ => follows_updateHdr cond g hlen

theorem follows_reparentAll (parentId : PageId) (children : List PageId) (hlen : holds.length < 4) :
    Follows (Exhausted allowed) (Paired allowed opened holds known) (reparentAll parentId children)
      (reparentAll parentId children) fun _ _ => Paired allowed opened holds known := by
  induction children with
  | nil => exact .pure fun _ _ h => h
  | cons child rest ih => exact .bind (follows_updateHdrIfAny _ _ hlen) fun _ _ => ih

/-! ## Lookup -/

/-- Both end at the same leaf, which is pinned, and have seen the same pages above it. -/
theorem follows_descend (key : Bytes) (fuel : Nat) (cur : PageId) (breadcrumbs : List PageId) :
    Follows (Exhausted allowed) (Paired allowed opened [] known) (descend key fuel cur breadcrumbs)
      (descend key fuel cur breadcrumbs) fun x y t u =>
        x.2 = y.2 ∧ Paired allowed opened [⟨x.1, y.1, false⟩] [] t u := by
  induction fuel generalizing cur breadcrumbs known with
  | zero => exact .throw _
  | succ fuel ih =>
    refine follows_fetch_bind _ (by decide) (.inr ((needs_node cur).bind _)) fun f => ?_
    refine .seq (follows_node List.mem_cons_self) fun n => ?_
    cases n with
    | leaf n => exact .pure fun t u h => ⟨rfl, h.unknow⟩
    | internal n => exact .bind (follows_unpin (.refl _) fun e => e) fun _ _ => ih _ _

theorem follows_findLeaf (key : Bytes) :
    Follows (Exhausted allowed) (Paired allowed opened [] known) (findLeaf key) (findLeaf key)
      fun x y t u => x.2 = y.2 ∧ Paired allowed opened [⟨x.1, y.1, false⟩] [] t u := by
  refine .get_bind fun t u h => ?_
  have hnum : PageStore.numPages u.store = PageStore.numPages t.store := h.accounts.numPages
  rw [hnum, h.root]
  have hstart : ∀ s w, s = t ∧ w = u → Paired allowed opened [] known s w := by
    rintro _ _ ⟨rfl, rfl⟩
    exact h
  exact (follows_descend key _ t.rootPageId []).pre hstart

theorem follows_get (key : Bytes) :
    Follows (Exhausted allowed) (Paired allowed opened [] known) (get key) (get key)
      fun r r' t u => r = r' ∧ Paired allowed opened [] [] t u := by
  refine .bind (follows_findLeaf key) ?_
  rintro ⟨p, breadcrumbs⟩ ⟨f, breadcrumbs'⟩
  refine .of_and fun _ => .seq (follows_readPage List.mem_cons_self) fun page => .of_and ?_
  rintro rfl
  refine .seq (follows_leafNode List.mem_cons_self) fun leaf => ?_
  refine .bind (follows_unpin (.refl _) fun e => e) fun _ _ => ?_
  exact .pure fun t u h => ⟨rfl, h⟩

/-! ## Insertion -/

section Insertion

variable {leftId rightId : PageId} (hallowed : ∀ free, allowed free ≤ allowed free.dropLast)

include hallowed

theorem follows_create :
    Follows (Exhausted allowed) (Paired allowed opened [] known) create create
      fun _ _ => Paired allowed opened [] [] := by
  refine follows_newPage_bind (by decide) hallowed fun rootId f => ?_
  refine .bind (follows_writePage List.mem_cons_self rfl) fun _ _ => ?_
  refine .bind (follows_unpin (.refl _) fun _ => rfl) fun _ _ => ?_
  exact follows_setRoot.post fun _ _ _ _ h => h.unknow

theorem follows_createNewRoot (sepKey : Bytes) :
    Follows (Exhausted allowed) (Paired allowed opened [] known) (createNewRoot leftId sepKey rightId)
      (createNewRoot leftId sepKey rightId) fun _ _ => Paired allowed opened [] [] := by
  refine follows_newPage_bind (by decide) hallowed fun newRootId f => ?_
  have hx : (⟨newRootId, f, true⟩ : Hold) ∈ [⟨newRootId, f, true⟩] := List.mem_cons_self
  refine .bind (follows_writePage hx rfl) fun _ _ => ?_
  refine .bind (follows_setHdr _ hx) fun _ _ => .seq (follows_internalNode hx) fun newRoot => ?_
  cases newRoot.insertSeparator sepKey rightId with
  | mk ok n =>
    cases ok with
    | false => exact .throw _
    | true =>
      refine .bind (follows_writeData _ hx) fun _ _ => ?_
      refine .bind (follows_unpin (.refl _) fun _ => rfl) fun _ _ => ?_
      refine .bind (follows_updateHdr _ _ (by decide)) fun _ _ => ?_
      refine .bind (follows_updateHdr _ _ (by decide)) fun _ _ => ?_
      exact follows_setRoot.post fun _ _ _ _ h => h.unknow

omit hallowed in
theorem follows_addSeparator {parentId : PageId} (sepKey : Bytes) (room cond : String)
    (hx : ⟨id, f, true⟩ ∈ holds) (hlen : holds.length < 4) :
    Follows (Exhausted allowed) (Paired allowed opened holds known)
      (addSeparator id parentId sepKey rightId room cond)
      (addSeparator f parentId sepKey rightId room cond)
      fun _ _ => Paired allowed opened holds known := by
  refine .seq (follows_internalNode hx) fun n => ?_
  cases n.insertSeparator sepKey rightId with
  | mk ok n' =>
    cases ok with
    | false => exact .throw _
    | true => exact .bind (follows_writeData _ hx) fun _ _ => follows_updateHdr _ _ hlen

theorem follows_splitParent {parentId : PageId} (sepKey : Bytes) :
    Follows (Exhausted allowed) (Paired allowed opened [⟨parentId, f, true⟩] known)
      (splitParent parentId parentId sepKey rightId) (splitParent f parentId sepKey rightId)
      fun x y t u => x = y ∧ Paired allowed opened [] [] t u := by
  refine .seq (follows_internalNode List.mem_cons_self) fun parent => ?_
  refine follows_newPage_bind (by simp) hallowed fun parentRightId g => ?_
  have hr : (⟨parentRightId, g, true⟩ : Hold) ∈
      [⟨parentRightId, g, true⟩, ⟨parentId, f, true⟩] := List.mem_cons_self
  have hl : (⟨parentId, f, true⟩ : Hold) ∈
      [⟨parentRightId, g, true⟩, ⟨parentId, f, true⟩] := List.mem_cons_of_mem _ List.mem_cons_self
  refine .bind (follows_writePage hr rfl) fun _ _ => ?_
  refine .seq (follows_internalNode hr) fun empty => .ofExcept_bind fun x _ => ?_
  obtain ⟨parent', parentRight, parentSep⟩ := x
  refine .bind (follows_writeData _ hl) fun _ _ => .bind (follows_writeData _ hr) fun _ _ => ?_
  have htail : Follows (Exhausted allowed)
      (Paired allowed opened [⟨parentRightId, g, true⟩, ⟨parentId, f, true⟩] (parentRightId :: known))
      (do
        let parentRight ← internalNode parentRightId
        reparentAll parentRightId (parentRight.hdr.firstChild :: parentRight.cells.map Prod.snd)
        unpin parentId true
        unpin parentRightId true
        return (parentRightId, parentSep))
      (do
        let parentRight ← internalNode g
        reparentAll parentRightId (parentRight.hdr.firstChild :: parentRight.cells.map Prod.snd)
        unpin parentId true
        unpin parentRightId true
        return (parentRightId, parentSep))
      fun x y t u => x = y ∧ Paired allowed opened [] [] t u := by
    refine .seq (follows_internalNode hr) fun parentRight => ?_
    refine .bind (follows_reparentAll _ _ (by simp)) fun _ _ => ?_
    refine .bind (follows_unpin (.swap _ _ _) fun _ => rfl) fun _ _ => ?_
    refine .bind (follows_unpin (.refl _) fun _ => rfl) fun _ _ => ?_
    exact .pure fun t u h => ⟨rfl, h.unknow⟩
  by_cases hlt : sepKey < parentSep
  · simp only [if_pos hlt]
    exact .bind (follows_addSeparator sepKey _ _ hl (by simp)) fun _ _ => htail
  · simp only [if_neg hlt]
    exact .bind (follows_addSeparator sepKey _ _ hr (by simp)) fun _ _ => htail

theorem follows_insertIntoParent (sepKey : Bytes) (breadcrumbs : List PageId) :
    Follows (Exhausted allowed) (Paired allowed opened [] known)
      (insertIntoParent leftId sepKey rightId breadcrumbs)
      (insertIntoParent leftId sepKey rightId breadcrumbs)
      fun _ _ => Paired allowed opened [] [] := by
  induction breadcrumbs generalizing leftId sepKey rightId known with
  | nil => exact follows_createNewRoot hallowed sepKey
  | cons parentId breadcrumbs ih =>
    refine follows_fetch_bind _ (by decide) (.inr (((needs_node parentId).bind _).bind _)) fun f => ?_
    have hx : (⟨parentId, f, true⟩ : Hold) ∈ [⟨parentId, f, true⟩] := List.mem_cons_self
    refine .seq ((follows_internalNode hx).pre fun _ _ h => h.change) fun parent => ?_
    have hadd : Follows (Exhausted allowed) (Paired allowed opened [⟨parentId, f, true⟩] (parentId :: known))
        (do
          addSeparator parentId parentId sepKey rightId "ok" "rp != nullptr"
          unpin parentId true)
        (do
          addSeparator f parentId sepKey rightId "ok" "rp != nullptr"
          unpin parentId true) fun _ _ => Paired allowed opened [] [] := by
      refine .bind (follows_addSeparator sepKey _ _ hx (by simp)) fun _ _ => ?_
      exact (follows_unpin (.refl _) fun _ => rfl).post fun _ _ _ _ h => h.unknow
    refine .ite (fun _ => .bind (follows_writeData _ hx) fun _ _ => ?_) fun _ => hadd
    refine .ite (fun _ => ?_) fun _ => hadd
    exact .seq (follows_splitParent hallowed sepKey) fun x => ih x.2

theorem follows_splitLeafPage {leafId : PageId} (key value : Bytes) :
    Follows (Exhausted allowed) (Paired allowed opened [⟨leafId, f, true⟩] known)
      (splitLeafPage leafId leafId key value) (splitLeafPage f leafId key value)
      fun x y t u => x = y ∧ Paired allowed opened [] [] t u := by
  refine .seq (follows_leafNode List.mem_cons_self) fun leaf => ?_
  refine follows_newPage_bind (by simp) hallowed fun rightId g => ?_
  have hr : (⟨rightId, g, true⟩ : Hold) ∈ [⟨rightId, g, true⟩, ⟨leafId, f, true⟩] :=
    List.mem_cons_self
  have hl : (⟨leafId, f, true⟩ : Hold) ∈ [⟨rightId, g, true⟩, ⟨leafId, f, true⟩] :=
    List.mem_cons_of_mem _ List.mem_cons_self
  refine .bind (follows_writePage hr rfl) fun _ _ => ?_
  refine .seq (follows_leafNode hr) fun empty => .ofExcept_bind fun x _ => ?_
  obtain ⟨leaf', right, sepKey⟩ := x
  refine .bind (follows_writeData _ hl) fun _ _ => .bind (follows_writeData _ hr) fun _ _ => ?_
  refine .bind (follows_updateHdrIfAny _ _ (by simp)) fun _ _ => ?_
  have hhalf : ∀ {half : PageId} {h : FrameId},
      (⟨half, h, true⟩ : Hold) ∈ [⟨rightId, g, true⟩, ⟨leafId, f, true⟩] → Follows (Exhausted allowed)
        (Paired allowed opened [⟨rightId, g, true⟩, ⟨leafId, f, true⟩] (rightId :: known))
        (do
          writeData half (.leaf ((← leafNode half).insertLeafCell key value).2)
          unpin leafId true
          unpin rightId true
          return (rightId, sepKey))
        (do
          writeData h (.leaf ((← leafNode h).insertLeafCell key value).2)
          unpin leafId true
          unpin rightId true
          return (rightId, sepKey))
        fun x y t u => x = y ∧ Paired allowed opened [] [] t u := by
    intro half h hx
    refine .seq (follows_leafNode hx) fun n => .bind (follows_writeData _ hx) fun _ _ => ?_
    refine .bind (follows_unpin (.swap _ _ _) fun _ => rfl) fun _ _ => ?_
    refine .bind (follows_unpin (.refl _) fun _ => rfl) fun _ _ => ?_
    exact .pure fun t u h => ⟨rfl, h.unknow⟩
  by_cases hlt : key < sepKey
  · simp only [if_pos hlt]
    exact hhalf hl
  · simp only [if_neg hlt]
    exact hhalf hr

theorem follows_insert (key value : Bytes) :
    Follows (Exhausted allowed) (Paired allowed opened [] known) (insert key value) (insert key value)
      fun _ _ => Paired allowed opened [] [] := by
  refine .ite (fun _ => .bind (follows_findLeaf key) ?_) fun _ => .throw _
  rintro ⟨p, breadcrumbs⟩ ⟨f, breadcrumbs'⟩
  refine .of_and ?_
  rintro rfl
  refine .seq (follows_readPage List.mem_cons_self) fun page => .of_and ?_
  rintro rfl
  have hx : (⟨page.pageId, f, true⟩ : Hold) ∈ [⟨page.pageId, f, true⟩] := List.mem_cons_self
  refine .seq ((follows_leafNode hx).pre fun _ _ h => h.change) fun leaf => ?_
  refine .bind (follows_writeData _ hx) fun _ _ => .ite (fun _ => ?_) fun _ => ?_
  · exact follows_unpin (.refl _) fun _ => rfl
  · refine .seq (follows_splitLeafPage hallowed key value) fun y => ?_
    exact follows_insertIntoParent hallowed y.2 breadcrumbs

end Insertion

/-! ## Removal -/

section Removal

variable (hallowed : ∀ free id, allowed free + 1 ≤ allowed (free ++ [id]))

include hallowed

theorem follows_collapseInto {newRoot oldRoot : PageId} (cond : String) (hold : oldRoot ∈ known) :
    Follows (Exhausted allowed) (Paired allowed opened [] known) (collapseInto newRoot oldRoot cond)
      (collapseInto newRoot oldRoot cond) fun _ _ => Paired allowed opened [] [] := by
  refine .bind (follows_updateHdr _ _ (by decide)) fun _ _ => ?_
  exact .bind (follows_deletePage hold fun free => hallowed free _) fun _ _ => follows_setRoot

theorem follows_fixRoot {pageId : PageId} (hid : pageId ∈ known) :
    Follows (Exhausted allowed) (Paired allowed opened [] known) (fixRoot pageId) (fixRoot pageId)
      fun _ _ => Paired allowed opened [] [] := by
  refine follows_fetch_bind _ (by decide) (.inl hid) fun f => ?_
  have hunpin : Follows (Exhausted allowed)
      (Paired allowed opened [⟨pageId, f, false⟩] (pageId :: known)) (unpin pageId false)
      (unpin pageId false) fun _ _ => Paired allowed opened [] (pageId :: known) :=
    follows_unpin (.refl _) fun e => e
  have hlast := hunpin.post fun _ _ _ _ h => h.unknow
  refine .seq (follows_readPage List.mem_cons_self) fun page => .of_and fun _ => ?_
  cases page.data with
  | internal root =>
    refine .ite (fun _ => .bind hunpin fun _ _ => ?_) fun _ => hlast
    exact .ite (fun _ => follows_collapseInto hallowed _ List.mem_cons_self) fun _ =>
      .pure fun _ _ h => h.unknow
  | leaf n => exact hlast
  | zero => exact hlast
  | header d => exact hlast

section Steal

variable {cur sib : FrameId} {curId sibId : PageId} (hcur : ⟨curId, cur, true⟩ ∈ holds)
  (hsib : ⟨sibId, sib, true⟩ ∈ holds)

include hcur hsib

omit hallowed in
/-- Both ways of stealing write two leaves. -/
theorem follows_stealLeaf (e : Except Exn (Node Bytes × Node Bytes × Bytes)) :
    Follows (Exhausted allowed) (Paired allowed opened holds known)
      (do
        let (n, m, newSep) ← ofExcept e
        writeData sibId (.leaf m)
        writeData curId (.leaf n)
        return newSep)
      (do
        let (n, m, newSep) ← ofExcept e
        writeData sib (.leaf m)
        writeData cur (.leaf n)
        return newSep)
      fun x y t u => x = y ∧ Paired allowed opened holds known t u := by
  refine .ofExcept_bind fun x _ => .bind (follows_writeData _ hsib) fun _ _ => ?_
  exact .bind (follows_writeData _ hcur) fun _ _ => .pure fun t u h => ⟨rfl, h⟩

omit hallowed in
/-- Or two internal nodes, and the child that moved gets its new parent. -/
theorem follows_stealInternal (hlen : holds.length < 4)
    (e : Except Exn (Node PageId × Node PageId × Bytes × PageId)) :
    Follows (Exhausted allowed) (Paired allowed opened holds known)
      (do
        let (n, m, newSep, stolenChild) ← ofExcept e
        writeData sibId (.internal m)
        writeData curId (.internal n)
        reparent (← readPage curId).pageId stolenChild
        return newSep)
      (do
        let (n, m, newSep, stolenChild) ← ofExcept e
        writeData sib (.internal m)
        writeData cur (.internal n)
        reparent (← readPage cur).pageId stolenChild
        return newSep)
      fun x y t u => x = y ∧ Paired allowed opened holds known t u := by
  refine .ofExcept_bind fun x _ => .bind (follows_writeData _ hsib) fun _ _ => ?_
  refine .bind (follows_writeData _ hcur) fun _ _ => ?_
  refine .seq (follows_readPage hcur) fun page => .of_and fun _ => ?_
  exact .bind (follows_updateHdrIfAny _ _ hlen) fun _ _ => .pure fun t u h => ⟨rfl, h⟩

omit hallowed in
theorem follows_stealFromLeft (hlen : holds.length < 4) :
    Follows (Exhausted allowed) (Paired allowed opened holds known) (stealFromLeft curId sibId)
      (stealFromLeft cur sib) fun x y t u => x = y ∧ Paired allowed opened holds known t u := by
  refine .seq (follows_node hcur) fun n => .seq (follows_node hsib) fun m => ?_
  cases n with
  | leaf n =>
    cases m with
    | leaf m => exact follows_stealLeaf hcur hsib _
    | internal m => exact .throw _
  | internal n =>
    cases m with
    | leaf m => exact .throw _
    | internal m => exact follows_stealInternal hcur hsib hlen _

omit hallowed in
theorem follows_stealFromRight (hlen : holds.length < 4) :
    Follows (Exhausted allowed) (Paired allowed opened holds known) (stealFromRight curId sibId)
      (stealFromRight cur sib) fun x y t u => x = y ∧ Paired allowed opened holds known t u := by
  refine .seq (follows_node hcur) fun n => .seq (follows_node hsib) fun m => ?_
  cases n with
  | leaf n =>
    cases m with
    | leaf m => exact follows_stealLeaf hcur hsib _
    | internal m => exact .throw _
  | internal n =>
    cases m with
    | leaf m => exact .throw _
    | internal m => exact follows_stealInternal hcur hsib hlen _

end Steal

omit hallowed in
/-- A step that was not taken leaves the parent pinned, and the sibling is in use if there is one. -/
theorem follows_borrow {steal : PageId → PageId → BTreeM Store Bytes}
    {steal' : FrameId → FrameId → BTreeM (BufferPool Content) Bytes} {parentId pageId sib : PageId}
    (sepSlot : Nat) (cond : String)
    (hsteal : ∀ {holds : List Hold} {known : List PageId} {cur q : FrameId} {curId qId : PageId},
      ⟨curId, cur, true⟩ ∈ holds → ⟨qId, q, true⟩ ∈ holds → holds.length < 4 →
        Follows (Exhausted allowed) (Paired allowed opened holds known) (steal curId qId) (steal' cur q)
          fun x y t u => x = y ∧ Paired allowed opened holds known t u)
    (hid : pageId ∈ known) :
    Follows (Exhausted allowed) (Paired allowed opened [⟨parentId, f, false⟩] known)
      (borrow steal parentId parentId pageId sib sepSlot cond)
      (borrow steal' f parentId pageId sib sepSlot cond) fun x y t u => x = y ∧
        if x then Paired allowed opened [] [] t u
        else Paired allowed opened [⟨parentId, f, false⟩]
          ((if sib = INVALID_PAGE_ID then [] else [sib]) ++ known) t u := by
  refine .ite (fun hsib => .pure fun t u h => ⟨rfl, ?_⟩) fun hsib => ?_
  · simp only [Bool.false_eq_true, if_false, if_pos hsib]
    exact h
  refine follows_fetch_bind cond (by simp) (.inr ((needs_node sib).bind _)) fun q => ?_
  refine .seq (follows_node List.mem_cons_self) fun n => .ite (fun _ => ?_) fun _ => ?_
  · refine .bind (follows_unpin (.refl _) fun e => e) fun _ _ => .pure fun t u h => ⟨rfl, ?_⟩
    simp only [Bool.false_eq_true, if_false, if_neg hsib]
    exact h
  refine follows_fetch_bind _ (by simp) (.inl (List.mem_cons_of_mem _ hid)) fun c => ?_
  have hcur : (⟨pageId, c, true⟩ : Hold) ∈
      [⟨pageId, c, true⟩, ⟨sib, q, true⟩, ⟨parentId, f, true⟩] := List.mem_cons_self
  have hq : (⟨sib, q, true⟩ : Hold) ∈
      [⟨pageId, c, true⟩, ⟨sib, q, true⟩, ⟨parentId, f, true⟩] :=
    List.mem_cons_of_mem _ List.mem_cons_self
  have hp : (⟨parentId, f, true⟩ : Hold) ∈
      [⟨pageId, c, true⟩, ⟨sib, q, true⟩, ⟨parentId, f, true⟩] :=
    List.mem_cons_of_mem _ (List.mem_cons_of_mem _ List.mem_cons_self)
  refine .seq ((hsteal hcur hq (by simp)).pre fun _ _ h => h.changeAll) fun newSep => ?_
  refine .seq (follows_internalNode hp) fun parent => .ofExcept_bind fun parent' _ => ?_
  refine .bind (follows_writeData _ hp) fun _ _ => ?_
  refine .bind (follows_unpin (.refl _) fun _ => rfl) fun _ _ => ?_
  refine .bind (follows_unpin (.refl _) fun _ => rfl) fun _ _ => ?_
  refine .bind (follows_unpin (.refl _) fun _ => rfl) fun _ _ => ?_
  exact .pure fun t u h => ⟨rfl, h.unknow⟩

omit hallowed in
theorem follows_mergeFrom {left right : FrameId} {leftId rightId : PageId} (sep : Bytes)
    (hleft : ⟨leftId, left, true⟩ ∈ holds) (hright : ⟨rightId, right, true⟩ ∈ holds)
    (hlen : holds.length < 4) :
    Follows (Exhausted allowed) (Paired allowed opened holds known) (mergeFrom leftId rightId sep)
      (mergeFrom left right sep) fun _ _ => Paired allowed opened holds known := by
  refine .seq (follows_node hleft) fun n => .seq (follows_node hright) fun m => ?_
  cases n with
  | leaf n =>
    cases m with
    | leaf m => exact .ofExcept_bind fun x _ => follows_writeData _ hleft
    | internal m => exact .throw _
  | internal n =>
    cases m with
    | leaf m => exact .throw _
    | internal m =>
      refine .ofExcept_bind fun x _ => .bind (follows_writeData _ hleft) fun _ _ => ?_
      refine .seq (follows_readPage hleft) fun page => .of_and fun _ => ?_
      exact follows_reparentAll _ _ hlen

omit hallowed in
theorem follows_relinkRight {left : FrameId} {leftId : PageId} (id : PageId)
    (hleft : ⟨leftId, left, true⟩ ∈ holds) (hlen : holds.length < 4) :
    Follows (Exhausted allowed) (Paired allowed opened holds known) (relinkRight leftId id)
      (relinkRight left id) fun _ _ => Paired allowed opened holds known := by
  refine .seq (follows_node hleft) fun n => ?_
  cases n with
  | leaf n => exact follows_updateHdrIfAny _ _ hlen
  | internal n => exact .pure fun _ _ h => h

/-- Where the parent is to be repaired as well, it is in use. -/
theorem follows_mergePages {parentId leftId rightId : PageId} (sepSlot : Nat)
    (hleft : leftId ∈ known) (hright : rightId ∈ known) :
    Follows (Exhausted allowed) (Paired allowed opened [⟨parentId, f, false⟩] known)
      (mergePages parentId parentId leftId rightId sepSlot)
      (mergePages f parentId leftId rightId sepSlot) fun x y t u => x = y ∧
        Paired allowed opened [] (if x then [parentId] else []) t u := by
  refine follows_fetch_bind _ (by simp) (.inl hleft) fun l => ?_
  refine follows_fetch_bind _ (by simp) (.inl (List.mem_cons_of_mem _ hright)) fun r => ?_
  have hr : (⟨rightId, r, true⟩ : Hold) ∈
      [⟨rightId, r, true⟩, ⟨leftId, l, true⟩, ⟨parentId, f, true⟩] := List.mem_cons_self
  have hl : (⟨leftId, l, true⟩ : Hold) ∈
      [⟨rightId, r, true⟩, ⟨leftId, l, true⟩, ⟨parentId, f, true⟩] :=
    List.mem_cons_of_mem _ List.mem_cons_self
  have hp : (⟨parentId, f, true⟩ : Hold) ∈
      [⟨rightId, r, true⟩, ⟨leftId, l, true⟩, ⟨parentId, f, true⟩] :=
    List.mem_cons_of_mem _ (List.mem_cons_of_mem _ List.mem_cons_self)
  refine .seq ((follows_internalNode hp).pre fun _ _ h => h.changeAll) fun parent => ?_
  refine .ofExcept_bind fun sep _ => .bind (follows_mergeFrom sep hl hr (by simp)) fun _ _ => ?_
  refine .bind (follows_relinkRight leftId hl (by simp)) fun _ _ => ?_
  refine .seq (follows_internalNode hp) fun parent => .bind (follows_writeData _ hp) fun _ _ => ?_
  refine .bind (follows_unpin (.swap _ _ _) fun _ => rfl) fun _ _ => ?_
  refine .bind (follows_unpin (.refl _) fun _ => rfl) fun _ _ => ?_
  refine .bind (follows_deletePage List.mem_cons_self fun free => hallowed free _) fun _ _ => ?_
  refine .get_bind fun t u h => ?_
  rw [h.root]
  -- the parent is still pinned, so it was not the page that went
  have hstart : ∀ s w, s = t ∧ w = u →
      Paired allowed opened [⟨parentId, f, true⟩] [parentId] s w := by
    rintro _ _ ⟨rfl, rfl⟩
    exact h.know List.mem_cons_self
  refine .bind ((follows_unpin (.refl _) fun _ => rfl).pre hstart) fun _ _ => ?_
  refine .ite (fun _ => .pure fun _ _ h => ⟨rfl, h⟩) fun _ => .ite (fun _ => ?_) fun _ => ?_
  · refine .bind (follows_collapseInto hallowed _ List.mem_cons_self) fun _ _ => ?_
    exact .pure fun _ _ h => ⟨rfl, h⟩
  · exact .pure fun _ _ h => ⟨rfl, h.unknow⟩

theorem follows_fixUnderflow {pageId : PageId} (breadcrumbs : List PageId) (hid : pageId ∈ known) :
    Follows (Exhausted allowed) (Paired allowed opened [] known) (fixUnderflow pageId breadcrumbs)
      (fixUnderflow pageId breadcrumbs) fun _ _ => Paired allowed opened [] [] := by
  induction breadcrumbs generalizing pageId known with
  | nil => exact follows_fixRoot hallowed hid
  | cons parentId breadcrumbs ih =>
    refine follows_fetch_bind _ (by decide) (.inr (((needs_node parentId).bind _).bind _)) fun f => ?_
    refine .seq (follows_internalNode List.mem_cons_self) fun parent => ?_
    refine .ofExcept_bind fun pos _ => ?_
    have hpage : pageId ∈ parentId :: known := List.mem_cons_of_mem _ hid
    refine .seq (follows_borrow pos.sepSlot _ follows_stealFromLeft hpage) fun taken => ?_
    cases taken with
    | true => exact .pure fun _ _ h => h
    | false =>
      refine .ite (fun htaken => absurd htaken Bool.false_ne_true) fun _ => ?_
      have hpage := List.mem_append_right
        (if pos.leftSib = INVALID_PAGE_ID then [] else [pos.leftSib]) hpage
      refine .seq (follows_borrow pos.sepSlot _ follows_stealFromRight hpage) fun taken => ?_
      cases taken with
      | true => exact .pure fun _ _ h => h
      | false =>
        have hpage := List.mem_append_right
          (if pos.rightSib = INVALID_PAGE_ID then [] else [pos.rightSib]) hpage
        have hagain : ∀ again : Bool, Follows (Exhausted allowed)
            (Paired allowed opened [] (if again then [parentId] else []))
            (if again then fixUnderflow parentId breadcrumbs else Pure.pure ())
            (if again then fixUnderflow parentId breadcrumbs else Pure.pure ())
            fun _ _ => Paired allowed opened [] [] := by
          intro again
          cases again with
          | true => exact ih List.mem_cons_self
          | false => exact .pure fun _ _ h => h
        refine .ite (fun htaken => absurd htaken Bool.false_ne_true) fun _ => ?_
        refine .ite (fun hr => ?_) fun _ => .ite (fun hl => ?_) fun _ => ?_
        · refine .seq (follows_mergePages hallowed pos.sepSlot hpage ?_) hagain
          rw [if_neg hr]
          exact List.mem_cons_self
        · refine .seq (follows_mergePages hallowed (leftMergeSlot parent pos.leftSib pageId) ?_ hpage)
            hagain
          rw [if_neg hl]
          exact List.mem_append_right _ List.mem_cons_self
        · exact (follows_unpin (.refl _) fun e => e).post fun _ _ _ _ h => h.unknow

theorem follows_remove (key : Bytes) :
    Follows (Exhausted allowed) (Paired allowed opened [] known) (remove key) (remove key)
      fun x y t u => x = y ∧ Paired allowed opened [] [] t u := by
  refine .bind (follows_findLeaf key) ?_
  rintro ⟨p, breadcrumbs⟩ ⟨f, breadcrumbs'⟩
  refine .of_and ?_
  rintro rfl
  refine .seq (follows_readPage List.mem_cons_self) fun page => .of_and ?_
  rintro rfl
  refine .seq ((follows_leafNode List.mem_cons_self).pre fun _ _ h => h.know List.mem_cons_self)
    fun leaf => .ite (fun _ => ?_) fun _ => ?_
  · refine .bind ((follows_writeData _ List.mem_cons_self).pre fun _ _ h => h.change) fun _ _ => ?_
    refine .get_bind fun t u h => ?_
    rw [h.root]
    have hstart : ∀ s w, s = t ∧ w = u →
        Paired allowed opened [⟨page.pageId, f, true⟩] [page.pageId] s w := by
      rintro _ _ ⟨rfl, rfl⟩
      exact h
    refine .bind ((follows_unpin (.refl _) fun _ => rfl).pre hstart) fun _ _ => ?_
    refine .ite (fun _ => ?_) fun _ => ?_
    · refine .bind (follows_fixUnderflow hallowed breadcrumbs List.mem_cons_self) fun _ _ => ?_
      exact .pure fun _ _ h => ⟨rfl, h⟩
    · exact .pure fun _ _ h => ⟨rfl, h.unknow⟩
  · refine .bind (follows_unpin (.refl _) fun e => e) fun _ _ => ?_
    exact .pure fun _ _ h => ⟨rfl, h.unknow⟩

end Removal

end BTree

end KeyVDB
