import KeyVDB.BTree.Parametric

/-!
# What a crash leaves of the tree

The data file after a crash holds the page writes that had completed. The root slot and the free
list are written through, node pages wait in the pool.
-/

namespace KeyVDB

/-! ## What the tree's calls keep -/

/-- The calls of the store, and writes through its pointers, keep `R`. -/
structure StoreKeeps {σ Ptr : Type} [PageStore σ Ptr] (R : σ → σ → Prop) : Prop where
  fetchPage : ∀ id, Keeps R (PageStore.fetchPage id : CallM Exn σ (Option Ptr))
  newPage : Keeps R (PageStore.newPage : CallM Exn σ (Option (PageId × Ptr)))
  unpinPage : ∀ id dirty, Keeps R (PageStore.unpinPage id dirty : CallM Exn σ Unit)
  deletePage : ∀ id, Keeps R (PageStore.deletePage id : CallM Exn σ Unit)
  setRootPageId : ∀ id, Keeps R (PageStore.setRootPageId id : CallM Exn σ Unit)
  setPage : ∀ s (p : Ptr) page, R s (PageStore.setPage s p page)

namespace BTree

section Keeps

variable {σ Ptr α : Type} [PageStore σ Ptr] {R : σ → σ → Prop}

/-- `R` on the stores of two trees. -/
abbrev OnStore (R : σ → σ → Prop) : BTree σ → BTree σ → Prop := fun t t' => R t.store t'.store

instance [IsPreorder σ R] : IsPreorder (BTree σ) (OnStore R) where
  refl t := refl_of R t.store
  trans _ _ _ h h' := trans_of R h h'

omit [PageStore σ Ptr] in
theorem keeps_onStore {x : CallM Exn σ α} (h : Keeps R x) : Keeps (OnStore R) (onStore x) :=
  h.onPart fun _ _ => rfl

/-- What the store's calls keep, the tree's code keeps. -/
theorem respected_keeps [IsPreorder σ R] (h : StoreKeeps R) :
    Respected (σ := σ) (τ := σ) fun x _ => Keeps (OnStore R) x where
  pure := .pure
  throw := .throw
  bind := .bind
  fetchPage id := keeps_onStore (h.fetchPage id)
  newPage := keeps_onStore h.newPage
  unpinPage id dirty := keeps_onStore (h.unpinPage id dirty)
  deletePage id := keeps_onStore (h.deletePage id)
  setRootPageId id := keeps_onStore (h.setRootPageId id)
  readPage _ := .bind .get fun _ => .pure _
  writePage p page := .modify fun t => h.setPage t.store p page
  get_bind hf := .get_bind fun t => hf t t rfl rfl t
  moveRoot _ := .modify fun t => refl_of R t.store

end Keeps

end BTree

/-! ## Completed writes stay -/

/-- The file with some more writes. -/
def Disk.Extends {δ : Type} (d d' : Disk δ) : Prop := ∃ ws, d'.writes = d.writes ++ ws

namespace Disk

variable {δ : Type}

instance : IsPreorder (Disk δ) Extends where
  refl d := ⟨[], (List.append_nil _).symm⟩
  trans a b c := by
    rintro ⟨ws, h⟩ ⟨ws', h'⟩
    exact ⟨ws ++ ws', by rw [h', h, List.append_assoc]⟩

theorem Extends.of_eq {d d' : Disk δ} (h : d'.writes = d.writes) : d.Extends d' :=
  ⟨[], by rw [h, List.append_nil]⟩

theorem keeps_readPage (id : PageId) : Keeps Extends (readPage id : DiskM δ (Page δ)) := by
  refine .get_bind fun d => ?_
  by_cases h : d.Readable id
  · have hread := exec_readPage h
    rw [readPage, exec_get_bind] at hread
    rw [hread]
    exact refl_of Extends d
  · obtain ⟨e, -, hread⟩ := exec_readPage_error h
    rw [readPage, exec_get_bind] at hread
    rw [hread]
    exact refl_of Extends d

theorem keeps_writePage (id : PageId) (page : Page δ) : Keeps Extends (writePage id page) :=
  .ite (.throw _) (.modify fun _ => ⟨_, rfl⟩)

variable [PageData δ]

theorem keeps_allocatePage : Keeps Extends (allocatePage : DiskM δ PageId) :=
  .get_bind fun _ => ⟨_, rfl⟩

theorem keeps_save : Keeps Extends (save : DiskM δ Unit) := by
  intro d
  by_cases h : d.Readable 0 ∧ d.freePages.length ≤ MAX_FREE_PAGES
  · rw [exec_save h.1 h.2]
    exact ⟨_, rfl⟩
  · obtain ⟨e, he, -⟩ := exec_save_error h
    rw [he]
    exact refl_of Extends d

theorem keeps_allocate : Keeps Extends (allocate : DiskM δ PageId) := by
  refine .get_bind fun d => ?_
  split
  · exact refl_of Extends d
  · next id hid =>
    exact keeps_save.bind (fun _ => .pure _) { d with freePages := d.freePages.dropLast }

theorem keeps_newPageId : Keeps Extends (newPageId : DiskM δ PageId) :=
  .bind keeps_allocate fun _ => .ite keeps_allocatePage (.pure _)

theorem keeps_free (id : PageId) : Keeps Extends (free id : DiskM δ Unit) := by
  refine .get_bind fun d => ?_
  split
  · exact refl_of Extends d
  · exact keeps_save { d with freePages := d.freePages ++ [id] }

theorem keeps_setRootPageId (id : PageId) : Keeps Extends (setRootPageId id : DiskM δ Unit) := by
  refine .get_bind fun d => ?_
  split
  · exact refl_of Extends d
  · exact (keeps_readPage 0).bind (fun _ => keeps_writePage 0 _) d

end Disk

namespace BufferPool

variable {δ : Type}

/-- The pools' files are related by `Extends`. -/
def Extends (p p' : BufferPool δ) : Prop := p.disk.Extends p'.disk

instance : IsPreorder (BufferPool δ) Extends where
  refl p := refl_of Disk.Extends p.disk
  trans _ _ _ h h' := trans_of Disk.Extends h h'

theorem keeps_onDisk {α : Type} {x : DiskM δ α} (h : Keeps Disk.Extends x) :
    Keeps Extends (onDisk x) :=
  h.onPart fun _ _ => rfl

/-- A change that is not in the file. -/
theorem Extends.of_disk_eq {p p' : BufferPool δ} (h : p'.disk = p.disk) : p.Extends p' :=
  .of_eq (by rw [h])

theorem keeps_unpinPage (id : PageId) (dirty : Bool) :
    Keeps Extends (unpinPage id dirty : PoolM δ Unit) := by
  refine .modify fun p => .of_disk_eq ?_
  split
  · rfl
  · rfl

theorem keeps_install (id : PageId) (f : FrameId) (frame : Frame δ) :
    Keeps Extends (install id f frame) := fun _ => .of_disk_eq rfl

variable [PageData δ]

theorem keeps_evictFrame (f : FrameId) : Keeps Extends (evictFrame f : PoolM δ Unit) := by
  refine .get_bind fun p => ?_
  have hclear : Keeps Extends (modify fun q : BufferPool δ =>
      { q.setFrame f { page := Page.clear } with
        pageTable := q.pageTable.erase (p.frames f).page.pageId
        lruList := q.lruList.erase f } : PoolM δ PUnit) := .modify fun _ => .of_disk_eq rfl
  dsimp only
  split
  · exact refl_of Extends p
  · split
    · exact refl_of Extends p
    · split
      · exact (keeps_onDisk (Disk.keeps_writePage _ _)).bind (fun _ => hclear) p
      · exact hclear p

theorem keeps_findFreeFrame : Keeps Extends (findFreeFrame : PoolM δ (Option FrameId)) := by
  refine .get_bind fun p => ?_
  split
  · exact .of_disk_eq rfl
  · split
    · exact refl_of Extends p
    · exact (keeps_evictFrame _).bind (fun _ => .pure _) p

theorem keeps_fetchPage (id : PageId) :
    Keeps Extends (fetchPage id : PoolM δ (Option FrameId)) := by
  refine .get_bind fun p => ?_
  split
  · exact .of_disk_eq rfl
  · refine keeps_findFreeFrame.bind (fun r => ?_) p
    split
    · exact .pure _
    · exact (keeps_onDisk (Disk.keeps_readPage id)).bind fun _ =>
        (keeps_install _ _ _).bind fun _ => .pure _

theorem keeps_newPage : Keeps Extends (newPage : PoolM δ (Option (PageId × FrameId))) := by
  refine (keeps_onDisk Disk.keeps_newPageId).bind fun id => keeps_findFreeFrame.bind fun r => ?_
  split
  · exact .throw _
  · exact (keeps_install _ _ _).bind fun _ => .pure _

theorem keeps_deletePage (id : PageId) : Keeps Extends (deletePage id : PoolM δ Unit) := by
  have hfree : Keeps Extends (onDisk (Disk.free id) : PoolM δ Unit) :=
    keeps_onDisk (Disk.keeps_free id)
  refine .get_bind fun p => ?_
  split
  · exact hfree p
  · next f hf =>
    split
    · exact refl_of Extends p
    · exact (keeps_evictFrame f).bind (fun _ => hfree)
        (p.setFrame f { p.frames f with isDirty := false })

/-- What the tree calls of the pool never takes a completed write back. -/
theorem storeKeeps : StoreKeeps (σ := BufferPool Content) Extends where
  fetchPage := keeps_fetchPage
  newPage := keeps_newPage
  unpinPage := keeps_unpinPage
  deletePage := keeps_deletePage
  setRootPageId id := keeps_onDisk (Disk.keeps_setRootPageId id)
  setPage _ _ _ := .of_disk_eq rfl

end BufferPool

/-! ## Crash images -/

/-- The calls of the tree's interface. -/
inductive TreeCall
  | get (key : Bytes)
  | insert (key value : Bytes)
  | remove (key : Bytes)

namespace BTree

section Runs

variable {σ Ptr : Type} [PageStore σ Ptr]

/-- One call; what it returns is dropped. -/
def perform : TreeCall → BTreeM σ Unit
  | .get key => do let _ ← get key
  | .insert key value => insert key value
  | .remove key => do let _ ← remove key

/-- The tree after some calls. A call that throws is followed by the next one, unless it ended the
process. -/
def performAll : BTree σ → List TreeCall → BTree σ
  | t, [] => t
  | t, c :: calls =>
    match exec (perform c) t with
    | (.ok _, t') => performAll t' calls
    | (.error e, t') => if e.ends then t' else performAll t' calls

theorem Respected.perform {τ : Type} [PageStore τ Ptr]
    {P : ∀ {α : Type}, BTreeM σ α → BTreeM τ α → Prop} (h : Respected P) (c : TreeCall) :
    P (perform c) (perform c) := by
  cases c with
  | get key => exact h.bind (h.get key) fun _ => h.pure _
  | insert key value => exact h.insert key value
  | remove key => exact h.bind (h.remove key) fun _ => h.pure _

theorem keeps_performAll {R : σ → σ → Prop} [IsPreorder σ R] (h : StoreKeeps R) (t : BTree σ)
    (calls : List TreeCall) : OnStore R t (performAll t calls) := by
  induction calls generalizing t with
  | nil => exact refl_of R t.store
  | cons c calls ih =>
    have hc : OnStore R t (exec (perform c) t).2 := (respected_keeps h).perform c t
    rw [performAll]
    split
    · next t' heq =>
      rw [heq] at hc
      exact trans_of R hc (ih t')
    · next e t' heq =>
      rw [heq] at hc
      split
      · exact hc
      · exact trans_of R hc (ih t')

end Runs

/-- `BTree::create` on a new file. -/
def created : BTree (BufferPool Content) :=
  (exec create { store := BufferPool.init (exec Disk.loadNew Disk.empty).2 }).2

/-- The page is a B+Tree node. -/
def isNode : Content → Bool
  | .leaf _ => true
  | .internal _ => true
  | _ => false

/-- The pages that are reached from a root by child pointers. -/
inductive Reaches (file : PageId → Page Content) (root : PageId) : PageId → Prop
  | root : Reaches file root root
  | child {p c : PageId} {n : Node PageId} : Reaches file root p → (file p).data = .internal n →
      c ∈ n.hdr.firstChild :: n.cells.map Prod.snd → Reaches file root c

/-- The file holds a tree: from the root in page 0 only nodes are reached, and none of them is in
the free list. -/
def WellFormed (file : PageId → Page Content) : Prop :=
  ∀ p, Reaches file (PageData.rootId (file 0).data) p →
    isNode (file p).data ∧ p ∉ PageData.freePages (file 0).data

/-- After `create`, a crash between any two writes of the run leaves a tree. -/
def CrashConsistent (calls : List TreeCall) : Prop :=
  let disk := (performAll created calls).store.disk
  ∀ n, created.store.disk.writes.length ≤ n → n ≤ disk.writes.length →
    WellFormed (Disk.fileAfter disk.opened (disk.writes.take n))

theorem fileAfter_data {opened : PageId → Page Content} {writes : List (PageId × Page Content)}
    {id : PageId} {α : Type} {f : Content → α} {a : α}
    (h : (writes.reverse.find? fun w => w.1 = id).map (fun w => f w.2.data) = some a) :
    f (Disk.fileAfter opened writes id).data = a := by
  obtain ⟨w, hw, rfl⟩ := Option.map_eq_some_iff.mp h
  rw [Disk.fileAfter, hw]
  rfl

/-- When `create` returns, the root slot names page 1, and what the file holds there are the zeros
with which the page was allocated. -/
theorem created_root :
    ((created.store.disk.writes.reverse.find? fun w => w.1 = 0).map fun w =>
        PageData.rootId w.2.data) = some 1 ∧
      ((created.store.disk.writes.reverse.find? fun w => w.1 = 1).map fun w =>
        isNode w.2.data) = some false := by
  decide +kernel

theorem created_not_wellFormed (opened : PageId → Page Content) :
    ¬ WellFormed (Disk.fileAfter opened created.store.disk.writes) := by
  intro h
  obtain ⟨hroot, hnode⟩ := created_root
  have hreach := h 1
  rw [fileAfter_data hroot, fileAfter_data hnode] at hreach
  exact Bool.false_ne_true (hreach .root).1

/-- **No run is crash consistent.** The crash that comes when `create` has returned is a crash point
of every run, and it leaves a root that is no node. -/
theorem not_crashConsistent (calls : List TreeCall) : ¬ CrashConsistent calls := by
  intro h
  obtain ⟨ws, hws⟩ := keeps_performAll BufferPool.storeKeeps created calls
  have himage := h created.store.disk.writes.length le_rfl
    (by rw [hws, List.length_append]; exact Nat.le_add_right _ _)
  rw [hws, List.take_left] at himage
  exact created_not_wellFormed _ himage

/-- The process crashes when `create` has returned. -/
theorem crash_after_create : ¬ CrashConsistent [] := by
  intro h
  have himage := h created.store.disk.writes.length le_rfl le_rfl
  rw [performAll, List.take_length] at himage
  exact created_not_wellFormed _ himage

end BTree

end KeyVDB
