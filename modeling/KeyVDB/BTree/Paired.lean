import KeyVDB.BTree.PinnedPages
import KeyVDB.BTree.Store
import KeyVDB.Lib.Follow
import KeyVDB.Storage.Capacity

/-!
# Two trees with the same pages

A tree on a `Store` and a tree on the pool and the file in the middle of the same call: `Paired` says
that they have the same pages, the same free list and the same pins, where the one has a page id and
the other has a frame. For each call of the pool there is a rule for `Follows`. The pool can do what
the store does as long as it has frames left: `Exhausted` is how it fails when they were lost.
-/

namespace KeyVDB

open BufferPool (Hold Session Coherent WritesTo)

/-! ## The pages that were given out -/

namespace Store

/-- The id was given out and not taken back. -/
def InUse (s : Store) (id : PageId) : Prop := 0 < id ∧ id < s.numPages ∧ id ∉ s.freePages

instance (s : Store) (id : PageId) : Decidable (s.InUse id) :=
  inferInstanceAs (Decidable (_ ∧ _ ∧ _))

/-- What those pages hold. -/
def allocated (s : Store) : BTree.Pages := fun id => if s.InUse id then some (s.pages id) else none

variable {s : Store} {id : PageId}

theorem allocated_of_inUse (h : s.InUse id) : s.allocated id = some (s.pages id) := if_pos h

theorem allocated_of_not_inUse (h : ¬ s.InUse id) : s.allocated id = none := if_neg h

theorem isSome_allocated : (s.allocated id).isSome ↔ s.InUse id := by
  by_cases h : s.InUse id
  · simp [allocated_of_inUse h, h]
  · simp [allocated_of_not_inUse h, h]

/-- At most one page changes. -/
theorem allocated_eq_update (s s' : Store) (id : PageId)
    (h : ∀ i, i ≠ id → (s'.InUse i ↔ s.InUse i) ∧ s'.pages i = s.pages i) :
    s'.allocated = Function.update s.allocated id (s'.allocated id) := by
  funext i
  by_cases hi : i = id
  · rw [hi, Function.update_self]
  · obtain ⟨hin, hpage⟩ := h i hi
    rw [Function.update_of_ne hi, allocated, allocated, hpage, if_congr hin rfl rfl]

theorem allocated_write (h : s.InUse id) (page : Page Content) :
    allocated { s with pages := Function.update s.pages id page } =
      Function.update s.allocated id (some page) := by
  have hother : ∀ i, i ≠ id → (InUse { s with pages := Function.update s.pages id page } i ↔
      s.InUse i) ∧ Function.update s.pages id page i = s.pages i :=
    fun i hi => ⟨Iff.rfl, Function.update_of_ne hi _ _⟩
  have hself : allocated { s with pages := Function.update s.pages id page } id = some page := by
    refine (if_pos h).trans (congrArg some ?_)
    exact Function.update_self ..
  rw [allocated_eq_update s _ id hother, hself]

/-- The ids that were given out are the ones that the file accounts for. -/
structure Accounts (s : Store) (d : Disk Content) : Prop where
  numPages : d.numPages = s.numPages
  freePages : d.freePages = s.freePages
  accounted : d.Accounted fun id => (s.allocated id).isSome

/-- The page that `new_page` takes, here and there. -/
theorem Accounts.nextPage {d d' : Disk Content} (h : s.Accounts d) (hd : d.Gives id d') :
    nextPage s.freePages s.numPages = (id, d'.numPages) ∧ d'.freePages = s.freePages.dropLast ∧
      ∀ i : PageId, 0 < i ∧ i < d'.numPages ∧ i ∉ d'.freePages ↔ i = id ∨ s.InUse i := by
  obtain ⟨hnum, hfree, hacc⟩ := h
  cases hd with
  | grow hnil =>
    rw [hfree] at hnil
    refine ⟨?_, ?_, fun i => ?_⟩
    · rw [hnil, KeyVDB.nextPage, ← hnum]
      rfl
    · rw [Disk.grown, hfree, hnil]
      rfl
    · have hpos : (0 : PageId) < d.numPages := by exact_mod_cast hacc.header
      have hsucc : (d.numPages : PageId) < d.numPages + 1 := Int.lt_succ _
      rw [InUse, Disk.grown, hfree, hnil, ← hnum]
      push_cast
      constructor
      · rintro ⟨hlo, hhi, hmem⟩
        rcases (Int.lt_add_one_iff.mp hhi).lt_or_eq with hlt | heq
        · exact .inr ⟨hlo, hlt, hmem⟩
        · exact .inl heq
      · rintro (rfl | ⟨hlo, hhi, hmem⟩)
        · exact ⟨hpos, hsucc, List.not_mem_nil⟩
        · exact ⟨hlo, hhi.trans hsucc, hmem⟩
  | reuse heq =>
    have hmem : id ∈ d.freePages := by
      rw [heq]
      exact List.mem_append_right _ List.mem_cons_self
    obtain ⟨hlo, hhi⟩ := hacc.range id (.inr hmem)
    have hnodup := hacc.free_nodup
    have hlast : s.freePages.getLast? = some id := by
      rw [← hfree, heq, List.getLast?_concat]
    have hne : id ≠ INVALID_PAGE_ID := by
      rintro rfl
      exact absurd hlo (by decide)
    refine ⟨?_, ?_, fun i => ?_⟩
    · rw [KeyVDB.nextPage, hlast]
      simp only [if_neg hne]
      rw [← hnum]
      rfl
    · rw [← hfree]
      rfl
    · rw [heq] at hnodup
      have hiff : i ∈ s.freePages ↔ i ∈ d.freePages.dropLast ∨ i = id := by
        rw [← hfree]
        conv_lhs => rw [heq]
        rw [List.mem_append, List.mem_singleton]
      have hnot : id ∉ d.freePages.dropLast := fun hid =>
        (List.nodup_append.mp hnodup).2.2 id hid id List.mem_cons_self rfl
      change 0 < i ∧ i < d.numPages ∧ i ∉ d.freePages.dropLast ↔ _
      rw [InUse, ← hnum, hiff]
      constructor
      · rintro ⟨hlo', hhi', hi⟩
        by_cases hid : i = id
        · exact .inl hid
        · exact .inr ⟨hlo', hhi', not_or.mpr ⟨hi, hid⟩⟩
      · rintro (rfl | ⟨hlo', hhi', hi⟩)
        · exact ⟨hlo, hhi, hnot⟩
        · exact ⟨hlo', hhi', fun h => hi (.inl h)⟩

end Store

/-! ## Page 0 and the size of the file -/

/-- What is read when the file is opened again. -/
structure OnFile (opened : Nat) (root : PageId) (d : Disk Content) : Prop where
  header : (d.file 0).data = .header { freePages := d.freePages, rootId := root }
  size : Disk.filePages opened d.writes = d.numPages

namespace OnFile

variable {opened : Nat} {root : PageId} {d d' : Disk Content}

theorem writesTo (h : OnFile opened root d) {v : BufferPool.View Content} (hd : WritesTo v d d')
    (hlive : ∀ id, v.live id → 0 < id ∧ id < d.numPages) : OnFile opened root d' where
  header := by
    rw [hd.file_of_not_live fun h0 => lt_irrefl _ (hlive 0 h0).1, hd.freePages]
    exact h.header
  size := by
    obtain ⟨ws, rfl, hws⟩ := hd
    have happend : Disk.filePages opened (d.writes ++ ws) =
        Disk.filePages (Disk.filePages opened d.writes) ws := List.foldl_append
    rw [happend, h.size]
    exact Disk.filePages_of_lt fun w hw => hlive _ (hws w hw).1

/-- Page 0 is written. -/
theorem write_header (h : OnFile opened root d) (hpos : 0 < d.numPages) {page : Page Content}
    {free : List PageId} {root' : PageId}
    (hpage : page.data = .header { freePages := free, rootId := root' }) :
    OnFile opened root' { d with freePages := free, writes := d.writes ++ [(0, page)] } where
  header := by
    have hself := Disk.file_write_self { d with freePages := free } 0 page
    rw [hself]
    exact hpage
  size := by
    change Disk.filePages opened (d.writes ++ [(0, page)]) = d.numPages
    rw [Disk.filePages_append, h.size]
    exact max_eq_left hpos

theorem saved (h : OnFile opened root d) (hpos : 0 < d.numPages) (free : List PageId) :
    OnFile opened root (Disk.saved { d with freePages := free }) := by
  refine h.write_header hpos ?_
  change PageData.setFreePages free (d.file 0).data = _
  rw [h.header]
  rfl

theorem gives (h : OnFile opened root d) (hpos : 0 < d.numPages) {id : PageId}
    (hd : d.Gives id d') : OnFile opened root d' := by
  cases hd with
  | grow hnil =>
    have hne : (0 : PageId) ≠ d.numPages := by
      exact_mod_cast hpos.ne
    have hfile : d.grown.file 0 = d.file 0 := Disk.file_write_of_ne _ hne _
    refine ⟨?_, ?_⟩
    · rw [hfile]
      exact h.header
    · rw [Disk.grown, Disk.filePages_append, h.size]
      exact max_eq_right (Nat.le_succ _)
  | reuse heq => exact h.saved hpos _

theorem toHeader (h : OnFile opened root d) (hread : d.Readable 0)
    (hlen : d.freePages.length ≤ MAX_FREE_PAGES) : d.Header d.freePages root where
  readable := hread
  freePages := by rw [h.header]; rfl
  rootId := by rw [h.header]; rfl
  length_le := hlen

end OnFile

/-! ## The pool -/

theorem Disk.Accounted.mended_eq {d : Disk Content} {live : PageId → Prop} (h : d.Accounted live) :
    d.mended = d := by
  have hfaults : d.faults = fun _ => none := funext h.faults
  rw [Disk.mended, ← hfaults]

namespace BTree

/-- The pool has lost so many frames that a call of the tree may not find one; how many is allowed
for with the free list as it is. -/
structure Exhausted (allowed : List PageId → Int) (e : Exn) (u : BTree (BufferPool Content)) :
    Prop where
  ends : e.ends = true
  few : u.store.capacity < 4
  lost : u.store.lost ≤ allowed u.store.disk.freePages

namespace Tracked

variable {pages : Pages} {holds : List Hold} {p p' : BufferPool Content} {id : PageId} {f : FrameId}

/-- When there is no frame to take, every frame that is left has a pointer to it. -/
theorem capacity_le (h : Tracked pages holds p) (hlist : p.Listed) (ht : p.takes = none) :
    p.capacity ≤ holds.length := by
  obtain ⟨hfree, hpinned⟩ := h.coherent.pinned_of_full h.nonneg hlist ht
  have hsub : p.pageTable.keys ⊆ (holds.map Hold.id).toFinset := by
    intro i hi
    rw [Finmap.mem_keys, ← Finmap.lookup_isSome] at hi
    obtain ⟨g, hg⟩ := Option.isSome_iff_exists.mp hi
    have hpins : (p.frames g).pinCount = holds.countP fun x => x.id = i :=
      (h.coherent.filed hg).pins
    have hpos : 0 < holds.countP fun x => x.id = i := by
      rw [← hpins]
      exact Nat.pos_of_ne_zero (hpinned hg)
    obtain ⟨x, hx, hid⟩ := List.countP_pos_iff.mp hpos
    rw [List.mem_toFinset]
    exact List.mem_map.mpr ⟨x, hx, of_decide_eq_true hid⟩
  have hcard := (Finset.card_le_card hsub).trans (List.toFinset_card_le _)
  rw [List.length_map] at hcard
  rw [BufferPool.capacity, hfree, List.length_nil, Nat.zero_add]
  exact hcard

/-- `fetch_page` finds no frame only where there is none to take. -/
theorem takes_of_fetchPage_none (h : Tracked pages holds p)
    (hexec : exec (BufferPool.fetchPage id) p = (.ok none, p')) : p.takes = none := by
  cases ht : p.takes with
  | none => rfl
  | some f =>
    exfalso
    simp only [BufferPool.fetchPage, exec_get_bind] at hexec
    cases hid : p.pageTable.lookup id with
    | some g =>
      rw [hid] at hexec
      cases hexec
    | none =>
      rw [hid] at hexec
      dsimp only at hexec
      rw [exec_bind_ok (BufferPool.exec_findFreeFrame h.coherent.lru_inUse ht)] at hexec
      dsimp only at hexec
      rw [exec_bind] at hexec
      split at hexec
      · cases hexec
      · cases hexec

/-- A page of the tree is fetched, or all frames that are left are pinned. -/
theorem fetch_cases (h : Tracked pages holds p) (hlist : p.Listed) (hlive : (pages id).isSome)
    (hread : p.disk.Readable id) :
    (∃ f p', exec (BufferPool.fetchPage id) p = (.ok (some f), p') ∧
        Tracked pages (⟨id, f, false⟩ :: holds) p' ∧
        WritesTo (Session.view ⟨p, pages, holds⟩) p.disk p'.disk ∧ p'.Listed ∧
        p'.capacity = p.capacity) ∨
      exec (BufferPool.fetchPage id) p = (.ok none, p) ∧ p.capacity ≤ holds.length := by
  have hfetched := h.coherent.fetched h.nonneg id
  have hwrites := h.fetch_writes id
  rcases hexec : exec (BufferPool.fetchPage id) p with ⟨r, p'⟩
  rw [hexec] at hfetched hwrites
  cases hfetched with
  | full => exact .inr ⟨rfl, h.capacity_le hlist (h.takes_of_fetchPage_none hexec)⟩
  | hit hid =>
    exact .inl ⟨_, _, rfl, h.fetch_page hlive hexec, hwrites, hlist.hit, rfl⟩
  | loaded hid ht =>
    exact .inl ⟨_, _, rfl, h.fetch_page hlive hexec, hwrites,
      (hlist.taken h.coherent ht).installed, h.coherent.capacity_loaded hid ht⟩
  | unreadable _ hbad => exact absurd hread hbad

/-- A new page, or all frames that are left are pinned. -/
theorem new_cases (h : Tracked pages holds p) (hlist : p.Listed)
    (hacc : p.disk.Accounted fun i => (pages i).isSome) :
    (∃ id f d p', exec BufferPool.newPage p = (.ok (some (id, f)), p') ∧ p.disk.Gives id d ∧
        WritesTo (Session.view ⟨p, pages, holds⟩) d p'.disk ∧
        Tracked (Function.update pages id (some { Page.clear with pageId := id }))
          (⟨id, f, false⟩ :: holds) p' ∧ p'.Listed ∧ p'.capacity = p.capacity) ∨
      ∃ e id d, exec BufferPool.newPage p = (.error e, { p with disk := d }) ∧ e.ends = true ∧
        p.disk.Gives id d ∧ p.capacity ≤ holds.length := by
  obtain ⟨id, d, hnew, hgives⟩ := hacc.newPageId
  obtain ⟨⟨hfresh, -⟩, hfile, -⟩ := hacc.gives hgives
  have hcoh : Coherent (Session.view ⟨p, pages, holds⟩) { p with disk := d } :=
    h.coherent.disk hfile
  have htracked : Tracked pages holds { p with disk := d } :=
    ⟨hcoh, h.pos, h.idle, h.signed.gives hgives⟩
  have hexec : exec BufferPool.newPage p = exec (BufferPool.newFrame id) { p with disk := d } :=
    exec_bind_ok (by rw [BufferPool.exec_onDisk, hnew]) _
  rcases hcoh.newFrame_cases h.nonneg id with ⟨e, hends, herr⟩ | ⟨f, ht, hok⟩
  · rw [herr] at hexec
    refine .inr ⟨e, id, d, hexec, hends, hgives, htracked.capacity_le hlist ?_⟩
    cases ht : BufferPool.takes { p with disk := d } with
    | none => rfl
    | some f =>
      rw [BufferPool.newFrame,
        exec_bind_ok (BufferPool.exec_findFreeFrame hcoh.lru_inUse ht)] at herr
      cases herr
  · rw [hok] at hexec
    have hid : p.pageTable.lookup id = none := by
      cases hid : p.pageTable.lookup id with
      | none => rfl
      | some g => exact absurd (h.coherent.filed hid).live hfresh
    refine .inl ⟨id, f, d, _, hexec, hgives, (hcoh.taken ht).2.2, ?_, ?_, ?_⟩
    · exact (h.new_page (by rw [hacc.mended_eq]; exact hacc) hexec).1
    · exact (BufferPool.Listed.taken (p := { p with disk := d }) hlist hcoh ht).installed
    · exact hcoh.capacity_loaded hid ht

end Tracked

/-! ## Both trees -/

theorem exec_onStore {σ α : Type} {x : CallM Exn σ α} {r : Except Exn α} {t : BTree σ} {s : σ}
    (h : exec x t.store = (r, s)) : exec (onStore x) t = (r, { t with store := s }) := by
  rw [onStore, exec_onPart, h]

/-- The two trees are in the same state. The tree on the pool has these pointers, these pages are in
use, and no more frames were lost than are allowed for with the free list as it is. -/
structure Paired (allowed : List PageId → Int) (opened : Nat) (holds : List Hold)
    (known : List PageId) (t : BTree Store) (u : BTree (BufferPool Content)) : Prop where
  root : u.rootPageId = t.rootPageId
  accounts : t.store.Accounts u.store.disk
  pins : t.store.pins = (holds.map Hold.id : List PageId)
  tracked : Tracked t.store.allocated holds u.store
  blank : ∀ id, ¬ t.store.InUse id → isNode (t.store.pages id).data = false
  known : ∀ id ∈ known, t.store.InUse id
  listed : u.store.Listed
  lost : u.store.lost ≤ allowed t.store.freePages
  onFile : OnFile opened t.rootPageId u.store.disk

/-- The call returns only if the page is a node. -/
def Needs {α : Type} (p : PageId) (x : BTreeM Store α) : Prop :=
  ∀ t a t', exec x t = (.ok a, t') → isNode (t.store.pages p).data = true

theorem Needs.bind {α β : Type} {p : PageId} {x : BTreeM Store α} (h : Needs p x)
    (f : α → BTreeM Store β) : Needs p (x >>= f) := by
  intro t b t' hexec
  rw [exec_bind] at hexec
  split at hexec
  · next a t₁ hx => exact h t a t₁ hx
  · cases hexec

theorem needs_node (p : PageId) : Needs p (node p : BTreeM Store AnyNode) := by
  intro t n t' hexec
  have hread : exec (readPage p) t = (.ok (t.store.pages p), t) := rfl
  rw [node, exec_bind_ok hread] at hexec
  split at hexec
  · next n hdata => rw [hdata]; rfl
  · next n hdata => rw [hdata]; rfl
  · cases hexec

namespace Paired

variable {allowed : List PageId → Int} {opened : Nat} {holds : List Hold} {known : List PageId}
  {t : BTree Store} {u : BTree (BufferPool Content)}

theorem mono (h : Paired allowed opened holds known t u) {known' : List PageId}
    (hsub : ∀ id ∈ known', id ∈ known) : Paired allowed opened holds known' t u :=
  { h with known := fun id hid => h.known id (hsub id hid) }

theorem unknow (h : Paired allowed opened holds known t u) : Paired allowed opened holds [] t u :=
  h.mono fun _ hi => absurd hi List.not_mem_nil

/-- A pointer may always be taken for one through which the page was changed. -/
theorem change {id : PageId} {f : FrameId}
    (h : Paired allowed opened (⟨id, f, false⟩ :: holds) known t u) :
    Paired allowed opened (⟨id, f, true⟩ :: holds) known t u :=
  { h with tracked := h.tracked.changed }

theorem inUse_of_mem (h : Paired allowed opened holds known t u) {x : Hold} (hx : x ∈ holds) :
    t.store.InUse x.id := by
  rw [← Store.isSome_allocated, h.tracked.page hx]
  rfl

/-- A page with a pointer is known. -/
theorem know (h : Paired allowed opened holds known t u) {x : Hold} (hx : x ∈ holds) :
    Paired allowed opened holds (x.id :: known) t u := by
  refine { h with known := fun id hid => ?_ }
  rcases List.mem_cons.mp hid with rfl | hid
  · exact h.inUse_of_mem hx
  · exact h.known id hid

/-- Both pointers are to the same page. -/
theorem page_eq (h : Paired allowed opened holds known t u) {x : Hold} (hx : x ∈ holds) :
    t.store.pages x.id = (u.store.frames x.frame).page := by
  have hpage := h.tracked.page hx
  rw [Store.allocated_of_inUse (h.inUse_of_mem hx)] at hpage
  exact Option.some.inj hpage

theorem changeAll (h : Paired allowed opened holds known t u) :
    Paired allowed opened (holds.map fun x => { x with changed := true }) known t u := by
  refine { h with pins := ?_, tracked := ?_ }
  · rw [h.pins, List.map_map]
    rfl
  · refine h.tracked.weaken (fun i => ?_) (fun x hx => ?_) fun x hx _ => ?_
    · rw [List.countP_map]
      rfl
    · obtain ⟨y, hy, rfl⟩ := List.mem_map.mp hx
      exact ⟨y, hy, rfl, rfl⟩
    · exact ⟨_, List.mem_map_of_mem hx, rfl, rfl⟩

/-! ### One call of the pool -/

/-- The pages that are written back are pages of the tree. -/
theorem range (h : Paired allowed opened holds known t u) (id : PageId)
    (hid : (Session.view ⟨u.store, t.store.allocated, holds⟩).live id) :
    0 < id ∧ id < u.store.disk.numPages :=
  h.accounts.accounted.range id (.inl hid)

/-- A page in use is pinned by both. -/
theorem fetch (h : Paired allowed opened holds known t u) {id : PageId} (cond : String)
    (hid : t.store.InUse id) (hlen : holds.length < 4) :
    (∃ f u', exec (BTree.fetch id cond) u = (.ok f, u') ∧
        Paired allowed opened (⟨id, f, false⟩ :: holds) (id :: known)
          { t with store := { t.store with pins := id ::ₘ t.store.pins } } u') ∨
      ∃ e u', exec (BTree.fetch id cond) u = (.error e, u') ∧ Exhausted allowed e u' := by
  have hlive : (t.store.allocated id).isSome := Store.isSome_allocated.mpr hid
  have hread := h.accounts.accounted.readable hlive
  rcases h.tracked.fetch_cases h.listed hlive hread with
    ⟨f, p', hexec, htracked, hwrites, hlisted, hcap⟩ | ⟨hexec, hcap⟩
  · refine .inl ⟨f, { u with store := p' }, ?_, ?_⟩
    · exact exec_bind_ok (exec_onStore hexec) _
    · have hacc := h.accounts.accounted.writesTo hwrites
      exact
        { root := h.root
          accounts := ⟨hwrites.numPages.trans h.accounts.numPages,
            hwrites.freePages.trans h.accounts.freePages, hacc⟩
          pins := by
            change id ::ₘ t.store.pins = _
            rw [h.pins]
            rfl
          tracked := htracked
          blank := h.blank
          known := fun i hi => by
            rcases List.mem_cons.mp hi with rfl | hi
            · exact hid
            · exact h.known i hi
          listed := hlisted
          lost := by
            rw [BufferPool.lost, hcap]
            exact h.lost
          onFile := h.onFile.writesTo hwrites h.range }
  · refine .inr ⟨.assertion cond, u, exec_bind_ok (exec_onStore hexec) _, rfl, hcap.trans_lt hlen, ?_⟩
    rw [h.accounts.freePages]
    exact h.lost

theorem unpin (h : Paired allowed opened holds known t u) {holds' : List Hold} {id : PageId}
    {f : FrameId} {b dirty : Bool} (hholds : holds.Perm (⟨id, f, b⟩ :: holds'))
    (hdirty : b = true → dirty = true) :
    ∃ u', exec (BTree.unpin id dirty) u = (.ok (), u') ∧ Paired allowed opened holds' known
      { t with store := { t.store with pins := t.store.pins.erase id } } u' := by
  rcases hexec : exec (BufferPool.unpinPage id dirty) u.store with ⟨r, p'⟩
  have hok : exec (BufferPool.unpinPage id dirty) u.store = (.ok (), p') := by
    rw [hexec]
    rw [BufferPool.unpinPage, exec_modify] at hexec
    cases hexec
    rfl
  obtain ⟨htracked, hdisk⟩ := h.tracked.unpin_page hholds hdirty hok
  have hframes : p'.freeFrames = u.store.freeFrames ∧ p'.pageTable = u.store.pageTable ∧
      p'.lruList = u.store.lruList := by
    rw [BufferPool.unpinPage, exec_modify] at hexec
    cases hexec
    split
    · exact ⟨rfl, rfl, rfl⟩
    · exact ⟨rfl, rfl, rfl⟩
  refine ⟨{ u with store := p' }, exec_onStore hok, ?_⟩
  exact
    { root := h.root
      accounts := by
        rw [hdisk]
        exact ⟨h.accounts.numPages, h.accounts.freePages, h.accounts.accounted⟩
      pins := by
        have hpins : t.store.pins = id ::ₘ (holds'.map Hold.id : List PageId) :=
          h.pins.trans (Multiset.coe_eq_coe.mpr (hholds.map Hold.id))
        change t.store.pins.erase id = _
        rw [hpins, Multiset.erase_cons_head]
      tracked := htracked
      blank := h.blank
      known := h.known
      listed := by
        rw [BufferPool.Listed, hframes.2.1, hframes.2.2]
        exact h.listed
      lost := by
        rw [BufferPool.lost, BufferPool.capacity, hframes.1, hframes.2.1]
        exact h.lost
      onFile := by
        rw [hdisk]
        exact h.onFile }

/-- A page is changed through its pointer. -/
theorem write (h : Paired allowed opened holds known t u) {id : PageId} {f : FrameId}
    {page : Page Content} (hx : ⟨id, f, true⟩ ∈ holds) (hpage : page.pageId = id) :
    Paired allowed opened holds known
      { t with store := { t.store with pages := Function.update t.store.pages id page } }
      { u with store := u.store.setFrame f { u.store.frames f with page } } := by
  have hin := h.inUse_of_mem hx
  have hpages := Store.allocated_write hin page
  have hlive : ∀ i, (Function.update t.store.allocated id (some page) i).isSome →
      (t.store.allocated i).isSome := by
    intro i hi
    by_cases hne : i = id
    · rw [hne]
      exact Store.isSome_allocated.mpr hin
    · rwa [Function.update_of_ne hne] at hi
  exact
    { root := h.root
      accounts := ⟨h.accounts.numPages, h.accounts.freePages, by
        rw [hpages]
        exact h.accounts.accounted.mono hlive⟩
      pins := h.pins
      tracked := by
        rw [hpages]
        exact h.tracked.write_page hx hpage
      blank := fun i hi => by
        have hne : i ≠ id := by
          rintro rfl
          exact hi hin
        change isNode (Function.update t.store.pages id page i).data = false
        rw [Function.update_of_ne hne]
        exact h.blank i hi
      known := h.known
      listed := h.listed
      lost := h.lost
      onFile := h.onFile }

/-- A new page is the same in both. -/
theorem new (h : Paired allowed opened holds known t u) (hlen : holds.length < 4)
    (hallowed : ∀ free, allowed free ≤ allowed free.dropLast) :
    (∃ id f u' s', exec Store.newPage t.store = (.ok (some (id, id)), s') ∧
        exec (onStore PageStore.newPage) u = (.ok (some (id, f)), u') ∧
        Paired allowed opened (⟨id, f, true⟩ :: holds) (id :: known) { t with store := s' } u') ∨
      ∃ e u', exec (onStore PageStore.newPage) u = (.error e, u') ∧ Exhausted allowed e u' := by
  rcases h.tracked.new_cases h.listed h.accounts.accounted with
    ⟨id, f, d, p', hexec, hgives, hwrites, htracked, hlisted, hcap⟩ |
    ⟨e, id, d, hexec, hends, hgives, hcap⟩
  · obtain ⟨hnext, hfree, hin⟩ := h.accounts.nextPage hgives
    obtain ⟨⟨hfresh, -⟩, -, hgiven⟩ := h.accounts.accounted.gives hgives
    let s' : Store :=
      { t.store with
        pages := Function.update t.store.pages id { Page.clear with pageId := id }
        numPages := d.numPages
        freePages := t.store.freePages.dropLast
        pins := id ::ₘ t.store.pins }
    have hinUse : ∀ i, s'.InUse i ↔ i = id ∨ t.store.InUse i := by
      intro i
      rw [← hin i, hfree]
      exact Iff.rfl
    have hpages : s'.allocated = Function.update t.store.allocated id
        (some { Page.clear with pageId := id }) := by
      have hself : s'.pages id = { Page.clear with pageId := id } := Function.update_self ..
      rw [Store.allocated_eq_update t.store s' id fun i hi =>
          ⟨(hinUse i).trans (or_iff_right hi), Function.update_of_ne hi _ _⟩,
        Store.allocated_of_inUse ((hinUse id).mpr (.inl rfl)), hself]
    have hacc : p'.disk.Accounted fun i => (s'.allocated i).isSome := by
      refine (hgiven _ fun i => ?_).writesTo hwrites
      rw [Store.isSome_allocated, Store.isSome_allocated]
      exact hinUse i
    have hrange : ∀ i, (t.store.allocated i).isSome → 0 < i ∧ i < d.numPages := by
      intro i hi
      have hi' := (hin i).mpr (.inr (Store.isSome_allocated.mp hi))
      exact ⟨hi'.1, hi'.2.1⟩
    refine .inl ⟨id, f, { u with store := p' }, s', ?_, exec_onStore hexec, ?_⟩
    · rw [Store.newPage, exec_get_bind, hnext]
      rfl
    · refine Paired.change ?_
      exact
        { root := h.root
          accounts := ⟨hwrites.numPages, hwrites.freePages.trans hfree, hacc⟩
          pins := by
            change id ::ₘ t.store.pins = _
            rw [h.pins]
            rfl
          tracked := by
            change Tracked s'.allocated _ _
            rw [hpages]
            exact htracked
          blank := fun i hi => by
            obtain ⟨hne, hnot⟩ := not_or.mp (mt (hinUse i).mpr hi)
            change isNode (Function.update t.store.pages id _ i).data = false
            rw [Function.update_of_ne hne]
            exact h.blank i hnot
          known := fun i hi => by
            refine (hinUse i).mpr ?_
            rcases List.mem_cons.mp hi with rfl | hi
            · exact .inl rfl
            · exact .inr (h.known i hi)
          listed := hlisted
          lost := by
            rw [BufferPool.lost, hcap]
            exact h.lost.trans (hallowed _)
          onFile := (h.onFile.gives h.accounts.accounted.header hgives).writesTo hwrites hrange }
  · obtain ⟨-, hfree, -⟩ := h.accounts.nextPage hgives
    refine .inr ⟨e, _, exec_onStore hexec, hends, hcap.trans_lt hlen, ?_⟩
    change (u.store.lost : Int) ≤ allowed d.freePages
    rw [hfree]
    exact h.lost.trans (hallowed _)

/-- A page in use that is not pinned goes from both. -/
theorem delete (h : Paired allowed opened holds known t u) {id : PageId}
    (hid : t.store.InUse id) (hpin : id ∉ t.store.pins)
    (hfull : t.store.freePages.length < MAX_FREE_PAGES)
    (hallowed : ∀ free, allowed free + 1 ≤ allowed (free ++ [id])) :
    ∃ u', exec (onStore (PageStore.deletePage id)) u = (.ok (), u') ∧
      Paired allowed opened holds []
        { t with store := { t.store with
          pages := Function.update t.store.pages id Page.clear
          freePages := t.store.freePages ++ [id] } } u' := by
  have hnot : ∀ x ∈ holds, x.id ≠ id := by
    rintro x hx rfl
    refine hpin ?_
    rw [h.pins]
    exact List.mem_map_of_mem hx
  have hunpinned : ∀ f, u.store.pageTable.lookup id = some f → (u.store.frames f).pinCount = 0 := by
    intro f hf
    have hpins : (u.store.frames f).pinCount = holds.countP fun x => x.id = id :=
      (h.tracked.coherent.filed hf).pins
    rw [hpins, List.countP_eq_zero]
    exact fun x hx he => hnot x hx (of_decide_eq_true he)
  have hlive : (t.store.allocated id).isSome := Store.isSome_allocated.mpr hid
  have hlen : u.store.disk.freePages.length < MAX_FREE_PAGES := by
    rw [h.accounts.freePages]
    exact hfull
  have hexec : exec (BufferPool.deletePage id) u.store =
      (.ok (), { u.store.dropped id with disk := u.store.disk.pushed id }) := by
    rw [h.tracked.coherent.exec_deletePage hunpinned, BufferPool.exec_onDisk,
      BufferPool.dropped_disk, h.accounts.accounted.exec_free id hlen]
  obtain ⟨htracked, -⟩ := h.tracked.delete_page hexec
  obtain ⟨-, hpushed⟩ := h.accounts.accounted.pushed hlive hlen
  let s' : Store :=
    { t.store with
      pages := Function.update t.store.pages id Page.clear
      freePages := t.store.freePages ++ [id] }
  have hinUse : ∀ i, s'.InUse i ↔ i ≠ id ∧ t.store.InUse i := by
    intro i
    change 0 < i ∧ i < t.store.numPages ∧ i ∉ t.store.freePages ++ [id] ↔ _
    rw [List.mem_append, List.mem_singleton, not_or, Store.InUse]
    tauto
  have hpages : s'.allocated = Function.update t.store.allocated id none := by
    rw [Store.allocated_eq_update t.store s' id fun i hi =>
        ⟨(hinUse i).trans (and_iff_right hi), Function.update_of_ne hi _ _⟩,
      Store.allocated_of_not_inUse fun hin => ((hinUse id).mp hin).1 rfl]
  refine ⟨_, exec_onStore hexec, ?_⟩
  exact
    { root := h.root
      accounts := by
        refine ⟨h.accounts.numPages, congrArg (· ++ [id]) h.accounts.freePages, hpushed _ fun i => ?_⟩
        rw [Store.isSome_allocated, Store.isSome_allocated]
        exact hinUse i
      pins := h.pins
      tracked := by
        change Tracked s'.allocated _ _
        rw [hpages]
        exact htracked
      blank := fun i hi => by
        change isNode (Function.update t.store.pages id Page.clear i).data = false
        by_cases hne : i = id
        · rw [hne, Function.update_self]
          rfl
        · rw [Function.update_of_ne hne]
          exact h.blank i fun hin => hi ((hinUse i).mpr ⟨hne, hin⟩)
      known := fun i hi => absurd hi List.not_mem_nil
      listed := h.listed.dropped h.tracked.coherent id
      lost := by
        have hmore : ((u.store.dropped id).lost : Int) ≤ u.store.lost + 1 := by
          exact_mod_cast h.tracked.coherent.lost_dropped id
        exact hmore.trans ((Int.add_le_add_right h.lost 1).trans (hallowed _))
      onFile := h.onFile.saved h.accounts.accounted.header _ }

/-- The root is moved, in memory and on page 0. -/
theorem moveRoot (h : Paired allowed opened holds known t u) (id : PageId) :
    ∃ u', exec (setRoot id) u = (.ok (), u') ∧
      Paired allowed opened holds known
        { t with rootPageId := id, store := { t.store with rootId := id } } u' := by
  have hread := h.accounts.accounted.readable_zero
  have hpos := h.accounts.accounted.header
  have hroot : exec (BufferPool.onDisk (Disk.setRootPageId id)) u.store =
      (.ok (), { u.store with disk := { u.store.disk with writes := u.store.disk.writes ++
        [(0, { u.store.disk.file 0 with
          data := PageData.setRootId id (u.store.disk.file 0).data })] } }) := by
    rw [BufferPool.exec_onDisk, Disk.setRootPageId, exec_get_bind, if_neg hpos.ne']
    simp only [exec_bind_ok (Disk.exec_readPage hread), Disk.exec_writePage (le_refl (0 : PageId))]
  obtain ⟨htracked, hfree, hnum⟩ := h.tracked.set_root hroot
  refine ⟨_, exec_onStore (x := PageStore.setRootPageId id) (t := { u with rootPageId := id }) hroot,
    ?_⟩
  exact
    { root := rfl
      accounts := ⟨h.accounts.numPages, h.accounts.freePages,
        h.accounts.accounted.congr rfl rfl rfl⟩
      pins := h.pins
      tracked := htracked
      blank := h.blank
      known := h.known
      listed := h.listed
      lost := h.lost
      onFile := by
        refine h.onFile.write_header hpos ?_
        change PageData.setRootId id (u.store.disk.file 0).data = _
        rw [h.onFile.header]
        rfl }

end Paired

end BTree

end KeyVDB
