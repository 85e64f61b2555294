import KeyVDB.BTree.Links
import KeyVDB.BTree.Process

/-!
# Calls that leave the pages where they are

A call that finds room in the leaf, or repairs it by borrowing, takes no page, deletes none and does
not move the root: it is `Calm`. What it writes to the file are pages that the pool evicts for it.
`Working` says that the tree stays on its pages in the middle of such a call, and that all that was
written back are nodes on these pages. It is followed through the calls with the rules of `Guards`,
since a call that fails has written pages back as well.
-/

namespace KeyVDB

open BufferPool (Hold Session Coherent WritesTo)

namespace BTree

/-! ## Pages that lead to each other -/

/-- A node whose children are among these pages. -/
def NodeIn (T : PageId → Prop) (c : Content) : Prop :=
  isNode c = true ∧ ∀ n, c = .internal n → ∀ id ∈ n.children, T id

/-- The file holds a tree on these pages. -/
structure FileOf (T : PageId → Prop) (file : PageId → Page Content) : Prop where
  root : T (PageData.rootId (file 0).data)
  free : ∀ id, T id → id ∉ PageData.freePages (file 0).data
  nodes : ∀ id, T id → NodeIn T (file id).data

/-- Besides other pages, nodes of the tree were written. -/
def WritesWithin (T : PageId → Prop) (d d' : Disk Content) : Prop :=
  ∃ ws, d' = { d with writes := d.writes ++ ws } ∧
    ∀ w ∈ ws, w.1 ≠ 0 ∧ (T w.1 → NodeIn T w.2.data)

section Files

variable {T : PageId → Prop} {file opened : PageId → Page Content} {d d' d'' : Disk Content}

theorem nodeIn_leaf (T : PageId → Prop) (n : Node Bytes) : NodeIn T (.leaf n) :=
  ⟨rfl, fun _ he => by cases he⟩

theorem nodeIn_internal {n : Node PageId} : NodeIn T (.internal n) ↔ ∀ id ∈ n.children, T id := by
  constructor
  · intro h
    exact h.2 n rfl
  · intro h
    refine ⟨rfl, fun m hm => ?_⟩
    cases hm
    exact h

/-- Only these pages are reached from the root. -/
theorem FileOf.reaches (h : FileOf T file) {p : PageId}
    (hp : Reaches file (PageData.rootId (file 0).data) p) : T p := by
  induction hp with
  | root => exact h.root
  | child hp hn hc ih => exact (h.nodes _ ih).2 _ hn _ hc

theorem FileOf.wellFormed (h : FileOf T file) : WellFormed file := by
  intro p hp
  have hT := h.reaches hp
  exact ⟨(h.nodes p hT).1, h.free p hT⟩

/-- A write that is not of page 0 and puts a node of the tree where the tree has one. -/
theorem FileOf.write {ws : List (PageId × Page Content)} {w : PageId × Page Content}
    (h : FileOf T (Disk.fileAfter opened ws)) (hne : w.1 ≠ 0) (hnode : T w.1 → NodeIn T w.2.data) :
    FileOf T (Disk.fileAfter opened (ws ++ [w])) := by
  obtain ⟨id, page⟩ := w
  let d : Disk Content := { numPages := 0, opened, writes := ws }
  have hself : Disk.fileAfter opened (ws ++ [(id, page)]) id = page := d.file_write_self id page
  have hother : ∀ i, i ≠ id →
      Disk.fileAfter opened (ws ++ [(id, page)]) i = Disk.fileAfter opened ws i :=
    fun i hi => d.file_write_of_ne hi page
  have hzero := hother 0 (Ne.symm hne)
  refine ⟨?_, fun i hi => ?_, fun i hi => ?_⟩
  · rw [hzero]
    exact h.root
  · rw [hzero]
    exact h.free i hi
  · by_cases he : i = id
    · subst he
      rw [hself]
      exact hnode hi
    · rw [hother i he]
      exact h.nodes i hi

theorem FileOf.writes {ws ws' : List (PageId × Page Content)}
    (h : FileOf T (Disk.fileAfter opened ws))
    (hws : ∀ w ∈ ws', w.1 ≠ 0 ∧ (T w.1 → NodeIn T w.2.data)) :
    FileOf T (Disk.fileAfter opened (ws ++ ws')) := by
  induction ws' generalizing ws with
  | nil =>
    rw [List.append_nil]
    exact h
  | cons w ws' ih =>
    obtain ⟨hne, hnode⟩ := hws w List.mem_cons_self
    rw [List.append_cons]
    exact ih (h.write hne hnode) fun x hx => hws x (List.mem_cons_of_mem w hx)

namespace WritesWithin

theorem refl (T : PageId → Prop) (d : Disk Content) : WritesWithin T d d := by
  refine ⟨[], ?_, fun w hw => absurd hw List.not_mem_nil⟩
  rw [List.append_nil]

theorem trans (h : WritesWithin T d d') (h' : WritesWithin T d' d'') : WritesWithin T d d'' := by
  obtain ⟨ws, rfl, hws⟩ := h
  obtain ⟨ws', rfl, hws'⟩ := h'
  refine ⟨ws ++ ws', by rw [← List.append_assoc], fun w hw => ?_⟩
  rcases List.mem_append.mp hw with hw | hw
  · exact hws w hw
  · exact hws' w hw

theorem numPages (h : WritesWithin T d d') : d'.numPages = d.numPages := by
  obtain ⟨ws, rfl, -⟩ := h
  rfl

theorem freePages (h : WritesWithin T d d') : d'.freePages = d.freePages := by
  obtain ⟨ws, rfl, -⟩ := h
  rfl

theorem fileOf (h : WritesWithin T d d') (hd : FileOf T d.file) : FileOf T d'.file := by
  obtain ⟨ws, rfl, hws⟩ := h
  exact hd.writes hws

/-- **Each crash image is a tree.** -/
theorem wellFormed_take (h : WritesWithin T d d') (hd : FileOf T d.file) {n : Nat}
    (hn : d.writes.length ≤ n) : WellFormed (Disk.fileAfter d.opened (d'.writes.take n)) := by
  obtain ⟨ws, rfl, hws⟩ := h
  rw [List.take_append, List.take_of_length_le hn]
  exact (hd.writes fun w hw => hws w (List.mem_of_mem_take hw)).wellFormed

end WritesWithin

end Files

end BTree

/-! ## What the tree sees of its pages -/

/-- What is in a page's frame, or else in the file. -/
def BufferPool.shown (p : BufferPool Content) (id : PageId) : Page Content :=
  match p.pageTable.lookup id with
  | some f => (p.frames f).page
  | none => p.disk.file id

namespace BTree

theorem Tracked.shown_eq {pages : Pages} {holds : List Hold} {p : BufferPool Content} {id : PageId}
    {page : Page Content} (h : Tracked pages holds p) (hid : pages id = some page) :
    p.shown id = page := by
  unfold BufferPool.shown
  cases hlook : p.pageTable.lookup id with
  | some f =>
    have himage : pages id = some (p.frames f).page := (h.coherent.filed hlook).image.1
    exact Option.some.inj (himage.symm.trans hid)
  | none =>
    have hlive : (pages id).isSome := by
      rw [hid]
      rfl
    have himage : pages id = some (p.disk.file id) := (h.coherent.absent hlive hlook).1
    exact Option.some.inj (himage.symm.trans hid)

/-! ## A call that leaves the pages where they are -/

/-- In the middle of a call: the pages of the tree hold `img`, the call has these pointers, and what
was written back are nodes of the tree. -/
structure Working (T : PageId → Prop) (d : Disk Content) (r : PageId) (img : PageId → Page Content)
    (holds : List Hold) (u : BTree (BufferPool Content)) : Prop where
  root : u.rootPageId = r
  tracked : ∃ pages, Tracked pages holds u.store ∧ ∀ id, T id → pages id = some (img id)
  nodes : ∀ id, T id → NodeIn T (img id).data
  writes : WritesWithin T d u.store.disk

/-- Only nodes of the tree were written back. -/
abbrev Wrote (T : PageId → Prop) (d : Disk Content) (u : BTree (BufferPool Content)) : Prop :=
  WritesWithin T d u.store.disk

section Calls

variable {T : PageId → Prop} {d : Disk Content} {r id : PageId} {img : PageId → Page Content}
  {holds : List Hold} {f : FrameId} {b dirty : Bool} {u : BTree (BufferPool Content)} {α : Type}
  {Q : α → BTree (BufferPool Content) → Prop}

/-- What the pool writes back are the pages as they are. -/
theorem WritesWithin.of_writesTo {pages : Pages} {p : BufferPool Content} {d' : Disk Content}
    (h : Tracked pages holds p) (himg : ∀ id, T id → pages id = some (img id))
    (hnodes : ∀ id, T id → NodeIn T (img id).data)
    (hd : WritesTo (Session.view ⟨p, pages, holds⟩) d d') : WritesWithin T d d' := by
  obtain ⟨ws, rfl, hws⟩ := hd
  refine ⟨ws, rfl, fun w hw => ?_⟩
  obtain ⟨hlive, himage, -⟩ := hws w hw
  refine ⟨(h.pos w.1 hlive).ne', fun hid => ?_⟩
  have hpage : img w.1 = w.2 := Option.some.inj ((himg w.1 hid).symm.trans himage)
  rw [← hpage]
  exact hnodes w.1 hid

namespace Working

/-- A pointer may always be taken for one through which the page was changed. -/
theorem change (h : Working T d r img (⟨id, f, false⟩ :: holds) u) :
    Working T d r img (⟨id, f, true⟩ :: holds) u := by
  obtain ⟨pages, htracked, himg⟩ := h.tracked
  exact { h with tracked := ⟨pages, htracked.changed, himg⟩ }

/-- What a pointer to a page of the tree points to. -/
theorem page (h : Working T d r img holds u) (hx : ⟨id, f, b⟩ ∈ holds) (hid : T id) :
    (u.store.frames f).page = img id ∧ (img id).pageId = id := by
  obtain ⟨pages, htracked, himg⟩ := h.tracked
  have hpage : (u.store.frames f).page = img id :=
    Option.some.inj ((htracked.page hx).symm.trans (himg id hid))
  refine ⟨hpage, ?_⟩
  rw [← hpage]
  exact htracked.header hx

theorem exec_readPage (h : Working T d r img holds u) (hx : ⟨id, f, b⟩ ∈ holds) (hid : T id) :
    exec (BTree.readPage f) u = (.ok (img id), u) := by
  rw [← (h.page hx hid).1]
  rfl

theorem exec_node (h : Working T d r img holds u) (hx : ⟨id, f, b⟩ ∈ holds) (hid : T id)
    {N : AnyNode} (hN : (img id).data = N.content) : exec (BTree.node f) u = (.ok N, u) := by
  rw [BTree.node, exec_bind_ok (h.exec_readPage hx hid), hN]
  cases N with
  | leaf n => rfl
  | internal n => rfl

end Working

theorem wrote_of_exists (h : ∃ img, Working T d r img holds u) : Wrote T d u := by
  obtain ⟨img, h⟩ := h
  exact h.writes

theorem guards_fetch (cond : String) (hid : T id) :
    Guards (Wrote T d) (Working T d r img holds) (fetch id cond)
      fun f => Working T d r img (⟨id, f, false⟩ :: holds) := by
  intro u h
  obtain ⟨pages, htracked, himg⟩ := h.tracked
  have hwrites := h.writes.trans (.of_writesTo htracked himg h.nodes (htracked.fetch_writes id))
  rcases hexec : exec (BufferPool.fetchPage id) u.store with ⟨e | found, p⟩
  · rw [hexec] at hwrites
    exact Guards.threw (exec_bind_error (exec_onStore (x := PageStore.fetchPage id) hexec) _) hwrites
  · rw [hexec] at hwrites
    rw [fetch, exec_bind_ok (exec_onStore (x := PageStore.fetchPage id) hexec)]
    cases found with
    | none => exact Guards.threw rfl hwrites
    | some f =>
      have hlive : (pages id).isSome := by
        rw [himg id hid]
        rfl
      have htracked' := htracked.fetch_page hlive hexec
      exact Guards.returned rfl hwrites ⟨h.root, ⟨pages, htracked', himg⟩, h.nodes, hwrites⟩

theorem guards_unpin (hdirty : b = true → dirty = true) :
    Guards (Wrote T d) (Working T d r img (⟨id, f, b⟩ :: holds)) (unpin id dirty)
      fun _ => Working T d r img holds := by
  intro u h
  obtain ⟨pages, htracked, himg⟩ := h.tracked
  have hexec : exec (BufferPool.unpinPage id dirty) u.store =
      (.ok (), (exec (BufferPool.unpinPage id dirty) u.store).2) := rfl
  obtain ⟨htracked', hdisk⟩ := htracked.unpin_page (.refl _) hdirty hexec
  have hwrites : WritesWithin T d (exec (BufferPool.unpinPage id dirty) u.store).2.disk := by
    rw [hdisk]
    exact h.writes
  exact Guards.returned rfl hwrites ⟨h.root, ⟨pages, htracked', himg⟩, h.nodes, hwrites⟩

theorem guards_readPage {k : Page Content → BTreeM (BufferPool Content) α}
    (hx : ⟨id, f, b⟩ ∈ holds) (hid : T id)
    (hk : (img id).pageId = id → Guards (Wrote T d) (Working T d r img holds) (k (img id)) Q) :
    Guards (Wrote T d) (Working T d r img holds) (readPage f >>= k) Q :=
  .known (fun _ h => (h.page hx hid).2) fun hheader =>
    .read (fun _ h => h.exec_readPage hx hid) (hk hheader)

theorem guards_node {k : AnyNode → BTreeM (BufferPool Content) α} {N : AnyNode}
    (hx : ⟨id, f, b⟩ ∈ holds) (hid : T id) (hN : (img id).data = N.content)
    (hk : Guards (Wrote T d) (Working T d r img holds) (k N) Q) :
    Guards (Wrote T d) (Working T d r img holds) (node f >>= k) Q :=
  .read (fun _ h => h.exec_node hx hid hN) hk

theorem guards_leafNode {k : Node Bytes → BTreeM (BufferPool Content) α} {n : Node Bytes}
    (hx : ⟨id, f, b⟩ ∈ holds) (hid : T id) (hn : (img id).data = .leaf n)
    (hk : Guards (Wrote T d) (Working T d r img holds) (k n) Q) :
    Guards (Wrote T d) (Working T d r img holds) (leafNode f >>= k) Q := by
  refine .read (fun u h => ?_) hk
  rw [leafNode, exec_bind_ok (h.exec_node hx hid (N := .leaf n) hn)]
  rfl

theorem guards_internalNode {k : Node PageId → BTreeM (BufferPool Content) α} {n : Node PageId}
    (hx : ⟨id, f, b⟩ ∈ holds) (hid : T id) (hn : (img id).data = .internal n)
    (hk : Guards (Wrote T d) (Working T d r img holds) (k n) Q) :
    Guards (Wrote T d) (Working T d r img holds) (internalNode f >>= k) Q := by
  refine .read (fun u h => ?_) hk
  rw [internalNode, exec_bind_ok (h.exec_node hx hid (N := .internal n) hn)]
  rfl

/-- The same where it is not known which node is in the page. -/
theorem guards_anyNode {k : AnyNode → BTreeM (BufferPool Content) α} (hx : ⟨id, f, b⟩ ∈ holds)
    (hid : T id) (hk : ∀ N : AnyNode, (img id).data = N.content →
      Guards (Wrote T d) (Working T d r img holds) (k N) Q) :
    Guards (Wrote T d) (Working T d r img holds) (node f >>= k) Q := by
  refine .known (fun _ h => h.nodes id hid) fun hnode => ?_
  cases hdata : (img id).data with
  | leaf n => exact guards_node (N := .leaf n) hx hid hdata (hk (.leaf n) hdata)
  | internal n => exact guards_node (N := .internal n) hx hid hdata (hk (.internal n) hdata)
  | zero =>
    rw [hdata] at hnode
    cases hnode.1
  | header h =>
    rw [hdata] at hnode
    cases hnode.1

theorem guards_anyInternal {k : Node PageId → BTreeM (BufferPool Content) α}
    (hx : ⟨id, f, b⟩ ∈ holds) (hid : T id) (hk : ∀ n : Node PageId, (∀ c ∈ n.children, T c) →
      Guards (Wrote T d) (Working T d r img holds) (k n) Q) :
    Guards (Wrote T d) (Working T d r img holds) (internalNode f >>= k) Q := by
  refine .known (fun _ h => h.nodes id hid) fun hnode => ?_
  cases hdata : (img id).data with
  | internal n =>
    rw [hdata] at hnode
    exact guards_internalNode hx hid hdata (hk n (nodeIn_internal.mp hnode))
  | leaf n =>
    intro u h
    have hread : exec (internalNode f) u = (.error (.assertion "!is_leaf()"), u) := by
      rw [internalNode, exec_bind_ok (h.exec_node hx hid (N := .leaf n) hdata)]
      rfl
    exact Guards.threw (exec_bind_error hread _) h.writes
  | zero =>
    rw [hdata] at hnode
    cases hnode.1
  | header h =>
    rw [hdata] at hnode
    cases hnode.1

/-- A node is changed in its frame. -/
theorem guards_writeData {data : Content} (hx : ⟨id, f, true⟩ ∈ holds) (hid : T id)
    (hdata : NodeIn T data) :
    Guards (Wrote T d) (Working T d r img holds) (writeData f data)
      fun _ => Working T d r (Function.update img id { img id with data }) holds := by
  intro u h
  obtain ⟨hpage, hheader⟩ := h.page hx hid
  have hexec : exec (writeData f data) u =
      (.ok (), { u with
        store := u.store.setFrame f { u.store.frames f with page := { img id with data } } }) := by
    rw [writeData, exec_bind_ok (h.exec_readPage hx hid)]
    rfl
  obtain ⟨pages, htracked, himg⟩ := h.tracked
  refine Guards.returned hexec h.writes
    ⟨h.root, ⟨_, htracked.write_page hx hheader, fun i hi => ?_⟩, fun i hi => ?_, h.writes⟩
  · by_cases he : i = id
    · rw [he, Function.update_self, Function.update_self]
    · rw [Function.update_of_ne he, Function.update_of_ne he]
      exact himg i hi
  · by_cases he : i = id
    · rw [he, Function.update_self]
      exact hdata
    · rw [Function.update_of_ne he]
      exact h.nodes i hi

end Calls

/-! ## Where `find_leaf` ends -/

/-- The leaf for a key, with its page and the pages above it. -/
structure Landing where
  leafId : PageId
  leaf : Node Bytes
  breadcrumbs : List PageId

/-- The loop of `find_leaf` on pages that hold this. -/
def landing (pages : PageId → Page Content) (key : Bytes) :
    Nat → PageId → List PageId → Option Landing
  | 0, _, _ => none
  | fuel + 1, cur, breadcrumbs =>
    match (pages cur).data with
    | .leaf leaf => some { leafId := cur, leaf, breadcrumbs }
    | .internal n => landing pages key fuel (n.childFor key) (cur :: breadcrumbs)
    | _ => none

/-- The leaf that the call comes to. -/
def leafFor (u : BTree (BufferPool Content)) (key : Bytes) : Option Landing :=
  landing u.store.shown key (u.store.disk.numPages + 1) u.rootPageId []

theorem childFor_mem_children (n : Node PageId) (key : Bytes) : n.childFor key ∈ n.children := by
  unfold Node.childFor
  dsimp only
  split
  · exact List.mem_cons_self
  · next hne =>
    have hle := lowerBound_le n.cells key
    have hlen := (List.takeWhile_prefix (l := n.cells.drop (lowerBound n.cells key))
      fun c => decide (c.1 = key)).length_le
    rw [List.length_drop] at hlen
    have hlt : lowerBound n.cells key + ((n.cells.drop (lowerBound n.cells key)).takeWhile
        fun c => decide (c.1 = key)).length - 1 < n.cells.length := by omega
    rw [List.getElem?_eq_getElem hlt]
    exact List.mem_cons_of_mem _ (List.mem_map_of_mem (List.getElem_mem hlt))

section Descent

variable {T : PageId → Prop} {d : Disk Content} {r : PageId} {img : PageId → Page Content}

/-- The leaf is there, and all pages on the way to it are pages of the tree. -/
structure Landed (T : PageId → Prop) (img : PageId → Page Content) (l : Landing) : Prop where
  leaf : (img l.leafId).data = .leaf l.leaf
  leafId : T l.leafId
  breadcrumbs : ∀ p ∈ l.breadcrumbs, T p

/-- The leaf is found and pinned. -/
def AtLeaf (T : PageId → Prop) (d : Disk Content) (r : PageId) (img : PageId → Page Content)
    (o : Option Landing) (x : FrameId × List PageId) (u : BTree (BufferPool Content)) : Prop :=
  ∃ l, (o = some l ∧ l.breadcrumbs = x.2 ∧ Landed T img l) ∧
    Working T d r img [⟨l.leafId, x.1, false⟩] u

theorem guards_descend (key : Bytes) (fuel : Nat) {cur : PageId} {breadcrumbs : List PageId}
    (hcur : T cur) (habove : ∀ p ∈ breadcrumbs, T p) :
    Guards (Wrote T d) (Working T d r img []) (descend key fuel cur breadcrumbs)
      (AtLeaf T d r img (landing img key fuel cur breadcrumbs)) := by
  induction fuel generalizing cur breadcrumbs with
  | zero => exact .throw _ fun _ h => h.writes
  | succ fuel ih =>
    refine .known (fun _ h => h.nodes cur hcur) fun hnode => ?_
    refine (guards_fetch _ hcur).bind fun f => ?_
    unfold landing
    cases hdata : (img cur).data with
    | zero =>
      rw [hdata] at hnode
      cases hnode.1
    | header =>
      rw [hdata] at hnode
      cases hnode.1
    | leaf n =>
      refine guards_node (N := .leaf n) List.mem_cons_self hcur hdata ?_
      refine .pure (fun _ h => h.writes) fun u h => ?_
      exact ⟨_, ⟨rfl, rfl, hdata, hcur, habove⟩, h⟩
    | internal n =>
      refine guards_node (N := .internal n) List.mem_cons_self hcur hdata ?_
      refine (guards_unpin fun e => e).bind fun _ => ?_
      rw [hdata] at hnode
      refine ih (nodeIn_internal.mp hnode _ (childFor_mem_children n key)) fun p hp => ?_
      rcases List.mem_cons.mp hp with rfl | hp
      · exact hcur
      · exact habove p hp

/-- What follows goes on with the leaf and a pointer to its page. -/
theorem guards_findLeaf {α : Type} {Q : α → BTree (BufferPool Content) → Prop} {key : Bytes}
    {k : FrameId × List PageId → BTreeM (BufferPool Content) α} (hr : T r)
    (hk : ∀ l f, landing img key (d.numPages + 1) r [] = some l → Landed T img l →
      Guards (Wrote T d) (Working T d r img [⟨l.leafId, f, false⟩]) (k (f, l.breadcrumbs)) Q) :
    Guards (Wrote T d) (Working T d r img []) (findLeaf key >>= k) Q := by
  have hfind : Guards (Wrote T d) (Working T d r img []) (findLeaf key)
      (AtLeaf T d r img (landing img key (d.numPages + 1) r [])) := by
    refine .get_bind (fun u h => ?_)
      (guards_descend key _ hr fun _ hp => absurd hp List.not_mem_nil)
    have hnum : PageStore.numPages u.store = d.numPages := h.writes.numPages
    rw [hnum, h.root]
  refine hfind.bind fun x => .of_exists fun l => .of_and fun h => ?_
  obtain ⟨f, breadcrumbs⟩ := x
  obtain ⟨ho, rfl, hl⟩ := h
  exact hk l f ho hl

theorem guards_get (key : Bytes) (hr : T r) :
    Guards (Wrote T d) (Working T d r img []) (get key) fun _ => Working T d r img [] := by
  refine guards_findLeaf hr fun l f _ hl => ?_
  refine guards_readPage List.mem_cons_self hl.leafId fun hid => ?_
  refine guards_leafNode List.mem_cons_self hl.leafId hl.leaf ?_
  rw [hid]
  refine (guards_unpin fun e => e).bind fun _ => ?_
  exact .pure (fun _ h => h.writes) fun _ h => h

/-- An insertion for which the leaf has room. -/
theorem guards_insert {key value : Bytes} (hr : T r)
    (hroom : ∀ l, landing img key (d.numPages + 1) r [] = some l →
      (l.leaf.insertLeafCell key value).1 = true) :
    Guards (Wrote T d) (Working T d r img []) (insert key value)
      fun _ u => ∃ img', Working T d r img' [] u := by
  unfold insert
  split
  · refine guards_findLeaf hr fun l f ho hl => ?_
    have hx : (⟨l.leafId, f, true⟩ : Hold) ∈ [⟨l.leafId, f, true⟩] := List.mem_cons_self
    refine .pre ?_ fun _ h => h.change
    refine guards_readPage hx hl.leafId fun hid => guards_leafNode hx hl.leafId hl.leaf ?_
    have hok := hroom l ho
    rcases hins : l.leaf.insertLeafCell key value with ⟨ok, leaf⟩
    rw [hins] at hok
    cases hok
    refine (guards_writeData hx hl.leafId (nodeIn_leaf T leaf)).bind fun _ => ?_
    rw [hid]
    exact (guards_unpin fun _ => rfl).post fun _ _ h => ⟨_, h⟩
  · exact .throw _ fun _ h => h.writes

end Descent

/-! ## Borrowing -/

/-- There is a sibling, and it has something to lend. -/
def lends (pages : PageId → Page Content) (sib : PageId) : Bool :=
  if sib = INVALID_PAGE_ID then false
  else
    match (pages sib).data with
    | .leaf n => !n.underflow
    | .internal n => !n.underflow
    | _ => false

/-- What `fix_underflow` does for a page is to borrow. -/
def borrows (pages : PageId → Page Content) (pageId : PageId) : List PageId → Bool
  | [] => false
  | parentId :: _ =>
    match (pages parentId).data with
    | .internal parent =>
      match position parent pageId with
      | .ok pos => lends pages pos.leftSib || lends pages pos.rightSib
      | .error _ => false
    | _ => false

/-- The call takes and deletes no page: the leaf has room for the pair; or what is left in the leaf
is enough, or it is the root, or it borrows. -/
def Calm (u : BTree (BufferPool Content)) : TreeCall → Prop
  | .get _ => True
  | .insert key value => Fits key value →
      ∀ l ∈ leafFor u key, (l.leaf.insertLeafCell key value).1 = true
  | .remove key => ∀ l ∈ leafFor u key,
      let slot := lowerBound l.leaf.cells key
      let leaf := l.leaf.removeCell slot
      (l.leaf.cells[slot]?).any (fun c => c.1 = key) = true → leaf.underflow = true →
        l.leafId ≠ u.rootPageId →
          borrows (Function.update u.store.shown l.leafId
            { u.store.shown l.leafId with data := .leaf leaf }) l.leafId l.breadcrumbs = true

instance (u : BTree (BufferPool Content)) (c : TreeCall) : Decidable (Calm u c) :=
  match c with
  | .get _ => instDecidableTrue
  | .insert key value => inferInstanceAs (Decidable (Fits key value →
      ∀ l ∈ leafFor u key, (l.leaf.insertLeafCell key value).1 = true))
  | .remove key => inferInstanceAs (Decidable (∀ l ∈ leafFor u key, _ → _ → _ → _))

section Borrowing

variable {T : PageId → Prop} {d : Disk Content} {r : PageId} {img : PageId → Page Content}
  {holds : List Hold}

theorem position_mem {parent : Node PageId} {pageId : PageId} {pos : Position}
    (h : position parent pageId = .ok pos) :
    (pos.leftSib = INVALID_PAGE_ID ∨ pos.leftSib ∈ parent.children) ∧
      (pos.rightSib = INVALID_PAGE_ID ∨ pos.rightSib ∈ parent.children) := by
  have hcell : ∀ i : Nat,
      ((parent.cells[i]?).map Prod.snd).getD INVALID_PAGE_ID = INVALID_PAGE_ID ∨
        ((parent.cells[i]?).map Prod.snd).getD INVALID_PAGE_ID ∈ parent.children := by
    intro i
    cases hc : parent.cells[i]? with
    | none => exact .inl rfl
    | some c => exact .inr (List.mem_cons_of_mem _ (List.mem_map_of_mem (List.mem_of_getElem? hc)))
  unfold position at h
  split at h
  · obtain ⟨rightSib, hval, h⟩ := except_bind_eq_ok.mp h
    cases h
    refine ⟨.inl rfl, .inr ?_⟩
    unfold Node.valueAt at hval
    split at hval
    · next c hc =>
      cases hval
      exact List.mem_cons_of_mem _ (List.mem_map_of_mem (List.mem_of_getElem? hc))
    · cases hval
  · split at h
    · cases h
    · next i hi =>
      cases h
      refine ⟨?_, hcell (i + 1)⟩
      by_cases hzero : i = 0
      · rw [if_pos hzero]
        exact .inr List.mem_cons_self
      · rw [if_neg hzero]
        exact hcell (i - 1)

theorem append_of_getElem? {β : Type} {l : List β} {i : Nat} {c : β} (h : l[i]? = some c) :
    ∃ a b, l = a ++ c :: b ∧ a.length = i := by
  obtain ⟨hlt, rfl⟩ := List.getElem?_eq_some_iff.mp h
  refine ⟨l.take i, l.drop (i + 1), ?_, List.length_take_of_le hlt.le⟩
  rw [List.getElem_cons_drop, List.take_append_drop]

/-- The parent keeps its children when a separator is replaced. -/
theorem children_replaceSeparator {parent n : Node PageId} {slot : Nat} {newSep : Bytes}
    (h : replaceSeparator parent slot newSep = .ok n) {id : PageId} (hid : id ∈ n.children) :
    id ∈ parent.children := by
  obtain ⟨_, hold, -⟩ := except_bind_eq_ok.mp h
  unfold Node.keyAt at hold
  split at hold
  · next c hc =>
    obtain ⟨a, b, hcells, hlen⟩ := append_of_getElem? hc
    rw [← hlen] at h
    obtain ⟨-, hhdr, hcells'⟩ := replaceSeparator_eq hcells h
    have hsub : ∀ x ∈ n.cells, x.2 ∈ parent.cells.map Prod.snd := by
      intro x hx
      have hx' : x = (newSep, c.2) ∨ x ∈ a ++ b := by
        rw [hcells'] at hx
        split at hx
        · exact List.mem_cons.mp (List.perm_middle.mem_iff.mp hx)
        · exact List.eq_or_mem_of_mem_insertIdx hx
      have hmem : ∀ y, y = c ∨ y ∈ a ++ b → y ∈ parent.cells := by
        intro y hy
        rw [hcells]
        exact List.perm_middle.mem_iff.mpr (List.mem_cons.mpr hy)
      rcases hx' with rfl | hx'
      · exact List.mem_map.mpr ⟨c, hmem c (.inl rfl), rfl⟩
      · exact List.mem_map_of_mem (hmem x (.inr hx'))
    rcases List.mem_cons.mp hid with rfl | hid
    · rw [hhdr]
      exact List.mem_cons_self
    · obtain ⟨x, hx, rfl⟩ := List.mem_map.mp hid
      exact List.mem_cons_of_mem _ (hsub x hx)
  · cases hold

variable {pageId sib : PageId} {cur q f : FrameId} {leaf : Node Bytes}

/-- Both ways of stealing write two leaves. -/
theorem guards_stealLeaf (hcur : ⟨pageId, cur, true⟩ ∈ holds) (hsib : ⟨sib, q, true⟩ ∈ holds)
    (hpage : T pageId) (hT : T sib) (e : Except Exn (Node Bytes × Node Bytes × Bytes)) :
    Guards (Wrote T d) (Working T d r img holds)
      (do
        let (n, m, newSep) ← ofExcept e
        writeData q (.leaf m)
        writeData cur (.leaf n)
        return newSep)
      fun _ u => ∃ img', Working T d r img' holds u := by
  refine .bind (.ofExcept (fun _ h => h.writes) fun _ _ _ h => h) fun x => ?_
  refine (guards_writeData hsib hT (nodeIn_leaf T x.2.1)).bind fun _ => ?_
  refine (guards_writeData hcur hpage (nodeIn_leaf T x.1)).bind fun _ => ?_
  exact .pure (fun _ h => h.writes) fun _ h => ⟨_, h⟩

theorem guards_stealFromLeft (hcur : ⟨pageId, cur, true⟩ ∈ holds) (hsib : ⟨sib, q, true⟩ ∈ holds)
    (hpage : T pageId) (hT : T sib) (hleaf : (img pageId).data = .leaf leaf) :
    Guards (Wrote T d) (Working T d r img holds) (stealFromLeft cur q)
      fun _ u => ∃ img', Working T d r img' holds u := by
  refine guards_node (N := .leaf leaf) hcur hpage hleaf (guards_anyNode hsib hT fun m _ => ?_)
  cases m with
  | leaf m => exact guards_stealLeaf hcur hsib hpage hT _
  | internal m => exact .throw _ fun _ h => h.writes

theorem guards_stealFromRight (hcur : ⟨pageId, cur, true⟩ ∈ holds) (hsib : ⟨sib, q, true⟩ ∈ holds)
    (hpage : T pageId) (hT : T sib) (hleaf : (img pageId).data = .leaf leaf) :
    Guards (Wrote T d) (Working T d r img holds) (stealFromRight cur q)
      fun _ u => ∃ img', Working T d r img' holds u := by
  refine guards_node (N := .leaf leaf) hcur hpage hleaf (guards_anyNode hsib hT fun m _ => ?_)
  cases m with
  | leaf m => exact guards_stealLeaf hcur hsib hpage hT _
  | internal m => exact .throw _ fun _ h => h.writes

/-- A page borrows if the sibling lends. -/
theorem guards_borrow {steal : FrameId → FrameId → BTreeM (BufferPool Content) Bytes}
    {parentId : PageId} (sepSlot : Nat) (cond : String)
    (hsteal : ∀ {holds : List Hold} {cur q : FrameId}, ⟨pageId, cur, true⟩ ∈ holds →
      ⟨sib, q, true⟩ ∈ holds → T sib → Guards (Wrote T d) (Working T d r img holds) (steal cur q)
        fun _ u => ∃ img', Working T d r img' holds u)
    (hparent : T parentId) (hpage : T pageId) (hsib : sib = INVALID_PAGE_ID ∨ T sib) :
    Guards (Wrote T d) (Working T d r img [⟨parentId, f, true⟩])
      (borrow steal f parentId pageId sib sepSlot cond)
      fun taken u => taken = lends img sib ∧ if taken then ∃ img', Working T d r img' [] u
        else Working T d r img [⟨parentId, f, true⟩] u := by
  refine .ite (fun hnone => .pure (fun _ h => h.writes) fun u h => ?_) fun hsome => ?_
  · rw [lends, if_pos hnone]
    exact ⟨rfl, h⟩
  have hT := hsib.resolve_left hsome
  refine (guards_fetch cond hT).bind fun q => ?_
  refine guards_anyNode List.mem_cons_self hT fun N hN => ?_
  have hlends : lends img sib = !N.underflow := by
    rw [lends, if_neg hsome, hN]
    cases N with
    | leaf n => rfl
    | internal n => rfl
  rw [hlends]
  refine .ite (fun hunder => ?_) fun hunder => ?_
  · refine (guards_unpin fun e => e).bind fun _ => .pure (fun _ h => h.writes) fun u h => ?_
    rw [hunder]
    exact ⟨rfl, h⟩
  refine .bind (.pre (guards_fetch _ hpage) fun _ h => h.change) fun c => ?_
  refine .pre ?_ fun _ h => h.change
  have hcur : (⟨pageId, c, true⟩ : Hold) ∈
      [⟨pageId, c, true⟩, ⟨sib, q, true⟩, ⟨parentId, f, true⟩] := List.mem_cons_self
  have hq : (⟨sib, q, true⟩ : Hold) ∈
      [⟨pageId, c, true⟩, ⟨sib, q, true⟩, ⟨parentId, f, true⟩] :=
    List.mem_cons_of_mem _ List.mem_cons_self
  have hp : (⟨parentId, f, true⟩ : Hold) ∈
      [⟨pageId, c, true⟩, ⟨sib, q, true⟩, ⟨parentId, f, true⟩] :=
    List.mem_cons_of_mem _ (List.mem_cons_of_mem _ List.mem_cons_self)
  refine (hsteal hcur hq hT).bind fun newSep => .of_exists fun img' => ?_
  refine guards_anyInternal hp hparent fun parent hchildren => ?_
  refine .bind (.ofExcept (fun _ h => h.writes) fun n hn u h => ⟨hn, h⟩)
    fun n => .of_and fun hn => ?_
  have hnode : NodeIn T (.internal n) :=
    nodeIn_internal.mpr fun id hid => hchildren id (children_replaceSeparator hn hid)
  refine (guards_writeData hp hparent hnode).bind fun _ => ?_
  refine (guards_unpin fun _ => rfl).bind fun _ => (guards_unpin fun _ => rfl).bind fun _ => ?_
  refine (guards_unpin fun _ => rfl).bind fun _ => .pure (fun _ h => h.writes) fun u h => ?_
  rw [Bool.eq_false_of_not_eq_true hunder]
  exact ⟨rfl, _, h⟩

/-- A leaf that can borrow is repaired. -/
theorem guards_fixUnderflow {breadcrumbs : List PageId} (hpage : T pageId)
    (hleaf : (img pageId).data = .leaf leaf) (habove : ∀ p ∈ breadcrumbs, T p)
    (hborrows : borrows img pageId breadcrumbs = true) :
    Guards (Wrote T d) (Working T d r img []) (fixUnderflow pageId breadcrumbs)
      fun _ u => ∃ img', Working T d r img' [] u := by
  cases breadcrumbs with
  | nil => cases hborrows
  | cons parentId breadcrumbs =>
    have hparent : T parentId := habove parentId List.mem_cons_self
    refine .known (fun _ h => h.nodes parentId hparent) fun hnode => ?_
    simp only [borrows] at hborrows
    cases hdata : (img parentId).data with
    | zero =>
      rw [hdata] at hborrows
      cases hborrows
    | header =>
      rw [hdata] at hborrows
      cases hborrows
    | leaf =>
      rw [hdata] at hborrows
      cases hborrows
    | internal parent =>
      rw [hdata] at hborrows hnode
      cases hpos : position parent pageId with
      | error e =>
        simp only [hpos] at hborrows
        cases hborrows
      | ok pos =>
        simp only [hpos] at hborrows
        obtain ⟨hleft, hright⟩ := position_mem hpos
        have hchildren := nodeIn_internal.mp hnode
        refine (guards_fetch _ hparent).bind fun f => .pre ?_ fun _ h => h.change
        refine guards_internalNode List.mem_cons_self hparent hdata ?_
        have hread : ∀ u : BTree (BufferPool Content),
            exec (ofExcept (position parent pageId)) u = (.ok pos, u) := by
          intro u
          rw [exec_ofExcept, hpos]
        refine .read (fun u _ => hread u) ?_
        refine (guards_borrow pos.sepSlot _ (fun hcur hsib hT =>
          guards_stealFromLeft hcur hsib hpage hT hleaf) hparent hpage
            (hleft.imp_right (hchildren _))).bind fun taken => .of_and fun htaken => ?_
        cases taken with
        | true => exact .pure (fun _ h => wrote_of_exists h) fun _ h => h
        | false =>
          rw [← htaken, Bool.false_or] at hborrows
          refine .ite (fun he => absurd he Bool.false_ne_true) fun _ => ?_
          refine (guards_borrow pos.sepSlot _ (fun hcur hsib hT =>
            guards_stealFromRight hcur hsib hpage hT hleaf) hparent hpage
              (hright.imp_right (hchildren _))).bind fun taken => .of_and fun htaken => ?_
          rw [hborrows] at htaken
          subst htaken
          exact .pure (fun _ h => wrote_of_exists h) fun _ h => h

end Borrowing

/-! ## A whole call -/

section Answer

variable {T : PageId → Prop} {d : Disk Content} {r : PageId} {img : PageId → Page Content}

theorem guards_remove {key : Bytes} (hr : T r)
    (hroom : ∀ l, landing img key (d.numPages + 1) r [] = some l →
      let slot := lowerBound l.leaf.cells key
      let leaf := l.leaf.removeCell slot
      (l.leaf.cells[slot]?).any (fun c => c.1 = key) = true → leaf.underflow = true → l.leafId ≠ r →
        borrows (Function.update img l.leafId { img l.leafId with data := .leaf leaf }) l.leafId
          l.breadcrumbs = true) :
    Guards (Wrote T d) (Working T d r img []) (remove key)
      fun _ u => ∃ img', Working T d r img' [] u := by
  refine guards_findLeaf hr fun l f ho hl => ?_
  refine guards_readPage List.mem_cons_self hl.leafId fun hid => ?_
  refine guards_leafNode List.mem_cons_self hl.leafId hl.leaf ?_
  rw [hid]
  have hroom := hroom l ho
  dsimp only at hroom
  refine .ite (fun hkey => .pre ?_ fun _ h => h.change) fun _ => ?_
  · refine (guards_writeData List.mem_cons_self hl.leafId (nodeIn_leaf T _)).bind fun _ => ?_
    refine .get_bind (y := do
      unpin l.leafId true
      if (l.leaf.removeCell (lowerBound l.leaf.cells key)).underflow ∧ l.leafId ≠ r then
        fixUnderflow l.leafId l.breadcrumbs
        return true
      else return true) (fun u h => by rw [h.root]) ?_
    refine (guards_unpin fun _ => rfl).bind fun _ => .ite (fun hunder => ?_) fun _ => ?_
    · have hleaf : (Function.update img l.leafId { img l.leafId with
          data := .leaf (l.leaf.removeCell (lowerBound l.leaf.cells key)) } l.leafId).data =
            .leaf (l.leaf.removeCell (lowerBound l.leaf.cells key)) := by
        rw [Function.update_self]
      refine (guards_fixUnderflow hl.leafId hleaf hl.breadcrumbs
        (hroom hkey hunder.1 hunder.2)).bind fun _ => ?_
      exact .pure (fun _ h => wrote_of_exists h) fun _ h => h
    · exact .pure (fun _ h => h.writes) fun _ h => ⟨_, h⟩
  · refine (guards_unpin fun e => e).bind fun _ => ?_
    exact .pure (fun _ h => h.writes) fun _ h => ⟨_, h⟩

/-- **A calm call** writes back nodes of the tree only, and the tree stays on its pages. -/
theorem guards_answer {u : BTree (BufferPool Content)} {c : TreeCall} (hcalm : Calm u c)
    (hr : T u.rootPageId) :
    Guards (Wrote T u.store.disk)
      (Working T u.store.disk u.rootPageId u.store.shown []) (answer c)
      fun _ u' => ∃ img', Working T u.store.disk u.rootPageId img' [] u' := by
  cases c with
  | get key =>
    exact (guards_get key hr).bind fun _ => .pure (fun _ h => h.writes) fun _ h => ⟨_, h⟩
  | insert key value =>
    by_cases hfits : Fits key value
    · exact (guards_insert hr (hcalm hfits)).bind fun _ =>
        .pure (fun _ h => wrote_of_exists h) fun _ h => h
    · intro u' h
      exact Guards.threw (exec_answer_tooLarge hfits u') h.writes
  | remove key =>
    exact (guards_remove hr hcalm).bind fun _ =>
      .pure (fun _ h => wrote_of_exists h) fun _ h => h

end Answer

end BTree

end KeyVDB
