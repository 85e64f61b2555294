import KeyVDB.BTree.PinnedPages

/-!
# Pins and dirty pages

The rules of `btree.h`: a page that is fetched is unpinned, with `dirty` if it was changed. `Holding`
is what holds between two calls of the pool: the pointers the tree has, and what it may rely on of
the pages. There is a rule for each call of the pool, and from them one for each function of the
tree. Insertion takes new pages, so it must not meet a free one: there the ids in the pages are ids
of pages (`Whole`). Removal takes none, and keeps its pins in order whatever it meets.
-/

namespace KeyVDB

open BufferPool (Hold)

namespace BTree

/-! ## What holds between two calls -/

/-- The pages that the tree goes to from a page: the right neighbour of a leaf, and the children. -/
def links : Content → List PageId
  | .leaf n => [n.hdr.rightSibling]
  | .internal n => n.hdr.firstChild :: n.cells.map Prod.snd
  | _ => []

/-- No page of the tree is free, and the tree goes from its pages to its pages. -/
structure Whole (pages : Pages) (root : PageId) (d : Disk Content) : Prop where
  accounted : d.mended.Accounted fun id => (pages id).isSome
  root : root ≠ INVALID_PAGE_ID → (pages root).isSome
  closed : ∀ id page, pages id = some page →
    ∀ l ∈ links page.data, l ≠ INVALID_PAGE_ID → (pages l).isSome

/-- The pages, the pointers and the record agree. -/
structure Disciplined (grows : Bool) (pages : Pages) (holds : List Hold) (known : List PageId)
    (t : BTree Watched) : Prop where
  tracked : Tracked pages holds t.store.pool
  whole : grows = true → Whole pages t.rootPageId t.store.pool.disk
  known : ∀ id ∈ known, id ≠ INVALID_PAGE_ID → (pages id).isSome
  few : holds.length ≤ 4
  peak : t.store.peak ≤ 4
  deleted : ∀ n ∈ t.store.deleted, n = 0
  written : ∀ id page, t.store.written id = some page → pages id = some page

/-- The tree has these pointers and knows these pages, in a call that takes new pages or not. -/
def Holding (grows : Bool) (holds : List Hold) (known : List PageId) (t : BTree Watched) : Prop :=
  ∃ pages, Disciplined grows pages holds known t

/-- The ids in a page are ids of pages where the call takes new pages. -/
def trusted (grows : Bool) (ids : List PageId) : List PageId := bif grows then ids else []

/-- The same if there is a node in the frame. -/
abbrev IfNode (p : FrameId) (I : BTree Watched → Prop) (t : BTree Watched) : Prop :=
  isNode (t.store.pool.frames p).page.data → I t

end BTree

/-- A page that is known to be one of the tree's need not be looked at. -/
theorem Triple.ofNode {α : Type} {x : BTreeM Watched α} {Q : α → BTree Watched → Prop} {p : FrameId}
    {I : BTree Watched → Prop} (h : Triple (BTree.IfNode p I) x Q) : Triple I x Q :=
  h.pre fun _ hI _ => hI

namespace BTree

namespace Holding

variable {grows : Bool} {holds : List Hold} {known : List PageId} {t : BTree Watched}

theorem mono (h : Holding grows holds known t) {known' : List PageId}
    (hsub : ∀ id ∈ known', id ∈ known ∨ id = INVALID_PAGE_ID) : Holding grows holds known' t := by
  obtain ⟨pages, h⟩ := h
  refine ⟨pages, { h with known := fun id hid hne => ?_ }⟩
  exact h.known id ((hsub id hid).resolve_right hne) hne

/-- Nothing need be known. -/
theorem unknow (h : Holding grows holds known t) : Holding grows holds [] t :=
  h.mono fun _ hi => absurd hi List.not_mem_nil

/-- A call that takes no new pages can do with less. -/
theorem forget (h : Holding grows holds known t) : Holding false holds known t := by
  obtain ⟨pages, h⟩ := h
  exact ⟨pages, { h with whole := fun e => by cases e }⟩

/-- A pointer may always be taken for one through which the page was changed. -/
theorem change {id : PageId} {p : FrameId} (h : Holding grows (⟨id, p, false⟩ :: holds) known t) :
    Holding grows (⟨id, p, true⟩ :: holds) known t := by
  obtain ⟨pages, h⟩ := h
  exact ⟨pages, { h with tracked := h.tracked.changed }⟩

theorem changeAll (h : Holding grows holds known t) :
    Holding grows (holds.map fun x => { x with changed := true }) known t := by
  obtain ⟨pages, h⟩ := h
  refine ⟨pages, { h with tracked := ?_, few := by rw [List.length_map]; exact h.few }⟩
  refine h.tracked.weaken (fun i => ?_) (fun x hx => ?_) fun x hx _ => ?_
  · rw [List.countP_map]
    rfl
  · obtain ⟨y, hy, rfl⟩ := List.mem_map.mp hx
    exact ⟨y, hy, rfl, rfl⟩
  · exact ⟨_, List.mem_map_of_mem hx, rfl, rfl⟩

/-- A page with a pointer is known. -/
theorem know (h : Holding grows holds known t) {x : Hold} (hx : x ∈ holds) :
    Holding grows holds (x.id :: known) t := by
  obtain ⟨pages, h⟩ := h
  refine ⟨pages, { h with known := fun id hid hne => ?_ }⟩
  rcases List.mem_cons.mp hid with rfl | hid
  · rw [h.tracked.page hx]
    rfl
  · exact h.known id hid hne

/-- So is the root, and what there is in a page with a pointer. -/
theorem know_root (h : Holding true holds known t) :
    Holding true holds (t.rootPageId :: known) t := by
  obtain ⟨pages, h⟩ := h
  refine ⟨pages, { h with known := fun id hid hne => ?_ }⟩
  rcases List.mem_cons.mp hid with rfl | hid
  · exact (h.whole rfl).root hne
  · exact h.known id hid hne

theorem know_links (h : Holding grows holds known t) {x : Hold} (hx : x ∈ holds) :
    Holding grows holds
      (trusted grows (links (t.store.pool.frames x.frame).page.data) ++ known) t := by
  obtain ⟨pages, h⟩ := h
  refine ⟨pages, { h with known := fun id hid hne => ?_ }⟩
  rcases List.mem_append.mp hid with hid | hid
  · cases grows with
    | false => cases hid
    | true => exact (h.whole rfl).closed x.id _ (h.tracked.page hx) id hid hne
  · exact h.known id hid hne

end Holding

/-! ## The calls of the pool -/

section Rules

variable {grows : Bool} {holds holds' : List Hold} {known : List PageId} {id : PageId} {p : FrameId}
  {b dirty : Bool}

/-- A call that returns. -/
theorem exec_onStore_counted {α : Type} {x : PoolM Content α} {a : α} {t t' : BTree Watched}
    (h : exec (onStore (Watched.counted x)) t = (.ok a, t')) :
    ∃ pool, exec x t.store.pool = (.ok a, pool) ∧
      t' = { t with store := { t.store with pool, peak := max t.store.peak pool.pinTotal } } := by
  rw [onStore, exec_onPart, exec_counted] at h
  rcases hx : exec x t.store.pool with ⟨_ | a', pool⟩
  · rw [hx] at h
    cases h
  · rw [hx] at h
    cases h
    exact ⟨pool, rfl, rfl⟩

/-- After a call that leaves some of these pointers the pins are counted. -/
theorem Tracked.peak_le {pages : Pages} {pool : BufferPool Content} (h : Tracked pages holds pool)
    (hlen : holds.length ≤ 4) {peak : Nat} (hpeak : peak ≤ 4) : max peak pool.pinTotal ≤ 4 := by
  rw [h.pinTotal]
  exact Nat.max_le.mpr ⟨hpeak, hlen⟩

/-- An id that can be fetched is not negative. -/
theorem Tracked.fetch_nonneg {pages : Pages} {pool pool' : BufferPool Content}
    (h : Tracked pages holds pool) (hexec : exec (BufferPool.fetchPage id) pool = (.ok (some p), pool')) :
    0 ≤ id := by
  have hfetched := h.coherent.fetched h.nonneg id
  rw [hexec] at hfetched
  cases hfetched with
  | hit hid => exact h.nonneg id (h.coherent.filed hid).live
  | loaded _ _ hread => exact hread.1

theorem exec_fetch {cond : String} {t t' : BTree Watched}
    (h : exec (fetch id cond) t = (.ok p, t')) :
    ∃ pool, exec (BufferPool.fetchPage id) t.store.pool = (.ok (some p), pool) ∧
      t' = { t with store := { t.store with pool, peak := max t.store.peak pool.pinTotal } } := by
  rw [fetch, exec_bind] at h
  split at h
  · next r t₁ hx =>
    obtain ⟨pool, hexec, rfl⟩ := exec_onStore_counted hx
    cases r with
    | none => cases h
    | some p' =>
      cases h
      exact ⟨pool, hexec, rfl⟩
  · cases h

/-- A page of the tree is fetched. -/
theorem Disciplined.fetch {pages : Pages} {cond : String} {t t' : BTree Watched}
    (h : Disciplined grows pages holds known t) (hlen : holds.length < 4)
    (hlive : (pages id).isSome) (hexec : exec (fetch id cond) t = (.ok p, t')) :
    Disciplined grows pages (⟨id, p, false⟩ :: holds) (id :: known) t' := by
  obtain ⟨pool, hfetch, rfl⟩ := exec_fetch hexec
  have htracked := h.tracked.fetch_page hlive hfetch
  refine ⟨htracked, fun hg => ?_, fun i hi hne => ?_, hlen, htracked.peak_le hlen h.peak, h.deleted,
    h.written⟩
  · have hwhole := h.whole hg
    have hwrites := h.tracked.fetch_writes id
    rw [hfetch] at hwrites
    exact ⟨hwhole.accounted.writesTo (Disk.writesTo_mended hwrites), hwhole.root, hwhole.closed⟩
  · rcases List.mem_cons.mp hi with rfl | hi
    · exact hlive
    · exact h.known i hi hne

theorem triple_fetch_known (cond : String) (hlen : holds.length < 4) (hid : id ∈ known) :
    Triple (Holding grows holds known) (fetch id cond) fun p =>
      Holding grows (⟨id, p, false⟩ :: holds) known := by
  rintro t ⟨pages, h⟩ p t' hexec
  obtain ⟨pool, hfetch, -⟩ := exec_fetch hexec
  have hne : id ≠ INVALID_PAGE_ID := by
    rintro rfl
    exact absurd (h.tracked.fetch_nonneg hfetch) (by decide)
  refine Holding.mono ⟨pages, h.fetch hlen (h.known id hid hne) hexec⟩ fun i hi => ?_
  exact .inl (List.mem_cons_of_mem _ hi)

/-- A page that may not be known turns out to be a node. -/
theorem triple_fetch (cond : String) (hlen : holds.length < 4) (hid : grows = true → id ∈ known) :
    Triple (Holding grows holds known) (fetch id cond) fun p =>
      IfNode p (Holding grows (⟨id, p, false⟩ :: holds) (id :: known)) := by
  rintro t ⟨pages, h⟩ p t' hexec hnode
  by_cases hlive : (pages id).isSome
  · exact ⟨pages, h.fetch hlen hlive hexec⟩
  · cases grows with
    | true =>
      have hexec' := triple_fetch_known cond hlen (hid rfl) t ⟨pages, h⟩ p t' hexec
      exact hexec'.know List.mem_cons_self
    | false =>
      obtain ⟨pool, hfetch, rfl⟩ := exec_fetch hexec
      obtain ⟨pages', htracked, hsome, hsub⟩ := h.tracked.fetch_node hfetch hnode
      refine ⟨pages', htracked, (fun e => by cases e), fun i hi hne => ?_, hlen,
        htracked.peak_le hlen h.peak, h.deleted, fun i page hi => hsub i page (h.written i page hi)⟩
      rcases List.mem_cons.mp hi with rfl | hi
      · exact hsome
      · obtain ⟨page, hpage⟩ := Option.isSome_iff_exists.mp (h.known i hi hne)
        rw [hsub i page hpage]
        rfl

theorem triple_unpin (hholds : holds.Perm (⟨id, p, b⟩ :: holds')) (hdirty : b = true → dirty = true) :
    Triple (Holding grows holds known) (unpin id dirty) fun _ => Holding grows holds' known := by
  rintro t ⟨pages, h⟩ a t' hexec
  obtain ⟨pool, hunpin, rfl⟩ := exec_onStore_counted hexec
  obtain ⟨htracked, hdisk⟩ := h.tracked.unpin_page hholds hdirty hunpin
  have hfew : holds'.length ≤ 4 := by
    have hlen := h.few
    rw [hholds.length_eq] at hlen
    exact (Nat.le_succ _).trans hlen
  refine ⟨pages, htracked, fun hg => ?_, h.known, hfew, htracked.peak_le hfew h.peak, h.deleted,
    h.written⟩
  have hwhole := h.whole hg
  refine ⟨?_, hwhole.root, hwhole.closed⟩
  dsimp only
  rw [hdisk]
  exact hwhole.accounted

theorem triple_readPage (hx : ⟨id, p, b⟩ ∈ holds) :
    Triple (Holding grows holds known) (readPage p) fun page t =>
      page.pageId = id ∧ Holding grows holds known t := by
  rintro t ⟨pages, h⟩ a t' ⟨⟩
  exact ⟨h.tracked.header hx, pages, h⟩

theorem triple_writePage {page : Page Content} (hx : ⟨id, p, true⟩ ∈ holds)
    (hpage : page.pageId = id)
    (hlinks : grows = true → ∀ l ∈ links page.data, l ∈ known ∨ l = INVALID_PAGE_ID) :
    Triple (Holding grows holds known) (writePage p page) fun _ => Holding grows holds known := by
  refine .modify fun t h => ?_
  obtain ⟨pages, h⟩ := h
  have hold := h.tracked.page hx
  have hlook := h.tracked.lookup hx
  have hsome : ∀ i, (Function.update pages id (some page) i).isSome ↔ (pages i).isSome := by
    intro i
    by_cases hne : i = id
    · subst hne
      simp [hold]
    · rw [Function.update_of_ne hne]
  refine ⟨_, h.tracked.write_page hx hpage, fun hg => ?_, fun i hi hne => ?_, h.few, h.peak,
    h.deleted, fun i q hi => ?_⟩
  · have hwhole := h.whole hg
    refine ⟨hwhole.accounted.mono fun i => (hsome i).mp, fun hne => (hsome _).mpr (hwhole.root hne),
      fun i q hq l hl hne => (hsome l).mpr ?_⟩
    by_cases hi : i = id
    · rw [hi, Function.update_self] at hq
      cases hq
      exact h.known l ((hlinks hg l hl).resolve_right hne) hne
    · rw [Function.update_of_ne hi] at hq
      exact hwhole.closed i q hq l hl hne
  · exact (hsome i).mpr (h.known i hi hne)
  · -- the frame is that of one page only
    change (if t.store.pool.pageTable.lookup i = some p then some page else t.store.written i) =
      some q at hi
    split at hi
    · next hi' =>
      cases hi
      rw [h.tracked.coherent.unique hi' hlook, Function.update_self]
    · next hi' =>
      have hne : i ≠ id := by
        rintro rfl
        exact hi' hlook
      rw [Function.update_of_ne hne]
      exact h.written i q hi

theorem triple_writeData {data : Content} (hx : ⟨id, p, true⟩ ∈ holds)
    (hlinks : grows = true → ∀ l ∈ links data, l ∈ known ∨ l = INVALID_PAGE_ID) :
    Triple (Holding grows holds known) (writeData p data) fun _ => Holding grows holds known :=
  .bind (triple_readPage hx) fun _ => .of_and fun hpage => triple_writePage hx hpage hlinks

/-- `new_page` gives out a page that the tree did not have. -/
theorem triple_newPage (hlen : holds.length < 4) :
    Triple (Holding true holds known) (onStore PageStore.newPage) fun r t =>
      ∀ id p, r = some (id, p) → Holding true (⟨id, p, true⟩ :: holds) (id :: known) t := by
  rintro t ⟨pages, h⟩ _ t' hexec id p rfl
  change exec (onStore Watched.newPage) t = _ at hexec
  rw [onStore, exec_onPart, Watched.newPage, exec_bind, exec_counted] at hexec
  rcases hx : exec BufferPool.newPage t.store.pool with ⟨_ | r, pool⟩
  · rw [hx] at hexec
    cases hexec
  · rw [hx] at hexec
    cases hexec
    have hwhole := h.whole rfl
    obtain ⟨hnew, hacc, hnone⟩ := h.tracked.new_page hwhole.accounted hx
    have htracked := hnew.changed
    have hsub : ∀ {i}, (pages i).isSome →
        (Function.update pages id (some { Page.clear with pageId := id }) i).isSome := by
      intro i hi
      by_cases hne : i = id
      · rw [hne, Function.update_self]
        rfl
      · rw [Function.update_of_ne hne]
        exact hi
    refine ⟨_, htracked, fun _ => ⟨hacc, fun hne => hsub (hwhole.root hne), fun i q hq l hl hne => ?_⟩,
      fun i hi hne => ?_, hlen, htracked.peak_le hlen h.peak, h.deleted, fun i q hi => ?_⟩
    · by_cases hi : i = id
      · rw [hi, Function.update_self] at hq
        cases hq
        cases hl
      · rw [Function.update_of_ne hi] at hq
        exact hsub (hwhole.closed i q hq l hl hne)
    · rcases List.mem_cons.mp hi with rfl | hi
      · rw [Function.update_self]
        rfl
      · exact hsub (h.known i hi hne)
    · have hpage := htracked.page List.mem_cons_self
      by_cases hne : i = id
      · subst hne
        have hi' : some (pool.frames p).page = some q := by simpa using hi
        rw [hpage, hi']
      · rw [Function.update_of_ne hne]
        have hi' : t.store.written i = some q := by simpa [hne] using hi
        exact h.written i q hi'

theorem triple_deletePage :
    Triple (Holding false holds known) (onStore (PageStore.deletePage id)) fun _ =>
      Holding false holds [] := by
  rintro t ⟨pages, h⟩ a t' hexec
  change exec (onStore (Watched.deletePage id)) t = _ at hexec
  rw [onStore, exec_onPart, Watched.deletePage, exec_modify_bind, exec_bind, exec_counted] at hexec
  dsimp only at hexec
  rcases hx : exec (BufferPool.deletePage id) t.store.pool with ⟨_ | r, pool⟩
  · rw [hx] at hexec
    cases hexec
  · rw [hx] at hexec
    cases hexec
    obtain ⟨htracked, hpins⟩ := h.tracked.delete_page hx
    refine ⟨_, htracked, (fun e => by cases e), (fun i hi => by cases hi), h.few,
      htracked.peak_le h.few h.peak, fun n hn => ?_, fun i q hi => ?_⟩
    · rcases List.mem_cons.mp hn with rfl | hn
      · exact hpins
      · exact h.deleted n hn
    · by_cases hne : i = id
      · subst hne
        simp at hi
      · rw [Function.update_of_ne hne]
        have hi' : t.store.written i = some q := by simpa [hne] using hi
        exact h.written i q hi'

theorem triple_setRoot (hid : grows = true → id ∈ known) :
    Triple (Holding grows holds known) (setRoot id) fun _ => Holding grows holds known := by
  rintro t ⟨pages, h⟩ a t' hexec
  change exec (onStore (Watched.counted (BufferPool.onDisk (Disk.setRootPageId id))))
    { t with rootPageId := id } = _ at hexec
  obtain ⟨pool, hroot, rfl⟩ := exec_onStore_counted hexec
  obtain ⟨htracked, hfree, hnum⟩ := h.tracked.set_root hroot
  refine ⟨pages, htracked, fun hg => ?_, h.known, h.few, htracked.peak_le h.few h.peak, h.deleted,
    h.written⟩
  have hwhole := h.whole hg
  exact ⟨hwhole.accounted.congr hfree hnum rfl, fun hne => h.known id (hid hg) hne, hwhole.closed⟩

end Rules

end BTree

end KeyVDB
