import KeyVDB.BTree.Defs
import KeyVDB.Lib.Call
import Mathlib.Order.Defs.LinearOrder

/-!
# The data file

`page.h`, `disk_manager.{h,cpp}` and `free_list.{h,cpp}`. The file is what it held when it was opened
and the list of the page writes that have completed since, so that a crash is a prefix of the
list. What a page holds besides its id is a parameter: the layers above read and write it, this one
only moves it around. `FreeList` reads and writes two fields of page 0, which are the operations of
the class `PageData`.
-/

namespace KeyVDB

/-- `page_id_t`. -/
abbrev PageId := Int

def INVALID_PAGE_ID : PageId := -1

/-- What a page holds besides its id: its type and its data area. -/
class PageData (δ : Type) where
  zero : δ  -- all bytes zero
  dbHeader : δ  -- page 0 of a new database: no free page, no root
  freePages : δ → List PageId  -- the count and the entries of the free list
  setFreePages : List PageId → δ → δ
  rootId : δ → PageId  -- the slot at `ROOT_ID_OFFSET`
  setRootId : PageId → δ → δ

/-- The data of page 0, as `FreeList` reads and writes it. -/
structure DbHeader where
  freePages : List PageId
  rootId : PageId

instance : PageData DbHeader where
  zero := { freePages := [], rootId := 0 }
  dbHeader := { freePages := [], rootId := INVALID_PAGE_ID }
  freePages := DbHeader.freePages
  setFreePages free h := { h with freePages := free }
  rootId := DbHeader.rootId
  setRootId id h := { h with rootId := id }

/-- `class Page`. -/
structure Page (δ : Type) where
  pageId : PageId
  data : δ

/-- `Page::clear`, also the constructor. All bytes are zero, so the id is 0. -/
def Page.clear {δ : Type} [PageData δ] : Page δ := { pageId := 0, data := PageData.zero }

/-- `FreeList::MAX_FREE_PAGES`. -/
def MAX_FREE_PAGES : Nat := (DATA_SIZE - 4 - 4) / 4

/-- How `pread` can fail. -/
inductive ReadFault
  | error
  | short (n : Nat)  -- fewer bytes than a page

/-- `class DiskManager` and the `FreeList` on it. -/
structure Disk (δ : Type) where
  numPages : Nat  -- `num_pages_`
  opened : PageId → Page δ  -- what the file held when it was opened
  writes : List (PageId × Page δ) := []  -- the completed page writes, oldest first
  faults : PageId → Option ReadFault := fun _ => none  -- the pages that cannot be read
  freePages : List PageId := []  -- `free_pages_`

/-- Calls that may throw; what they did before stays done. -/
abbrev DiskM (δ : Type) := CallM Exn (Disk δ)

namespace Disk

variable {δ : Type}

/-- A new file. -/
def empty [PageData δ] : Disk δ := { numPages := 0, opened := fun _ => Page.clear }

/-- A page after some writes. -/
def fileAfter (opened : PageId → Page δ) (writes : List (PageId × Page δ)) (id : PageId) : Page δ :=
  ((writes.reverse.find? fun w => w.1 = id).map Prod.snd).getD (opened id)

/-- The bytes of a page in the file. -/
def file (d : Disk δ) (id : PageId) : Page δ := fileAfter d.opened d.writes id

/-! ## DiskManager -/

def readPage (id : PageId) : DiskM δ (Page δ) := do
  let d ← get
  if id < 0 ∨ (d.numPages : Int) ≤ id then
    throw (.outOfRange ("DiskManager::read_page: page_id " ++ toString id ++
      " is out of range [0, " ++ toString d.numPages ++ ")"))
  else
    match d.faults id with
    | some .error => throw (.systemError "DiskManager::read_page: pread failed")
    | some (.short n) =>
      throw (.runtimeError ("DiskManager::read_page: short read — expected " ++
        toString PAGE_SIZE ++ " bytes, got " ++ toString n))
    | none => return d.file id

def writePage (id : PageId) (page : Page δ) : DiskM δ Unit := do
  if id < 0 then
    throw (.invalidArgument ("DiskManager::write_page: negative page_id " ++ toString id))
  else
    modify fun d => { d with writes := d.writes ++ [(id, page)] }

/-- `allocate_page`: a zeroed page at the end of the file. -/
def allocatePage [PageData δ] : DiskM δ PageId := do
  let d ← get
  set { d with numPages := d.numPages + 1, writes := d.writes ++ [((d.numPages : Int), Page.clear)] }
  return d.numPages

/-! ## FreeList -/

variable [PageData δ]

/-- `load` on a new file: page 0 is allocated and initialised. -/
def loadNew : DiskM δ Unit := do
  let p0 ← allocatePage
  if p0 ≠ 0 then throw (.assertion "p0 == 0 && \"Page 0 must be the very first allocation\"")
  writePage 0 { pageId := 0, data := PageData.dbHeader }

/-- `save`: page 0 is read, changed and written. -/
def save : DiskM δ Unit := do
  if (← get).numPages = 0 then throw (.assertion "dm_.num_pages() > 0")
  let page ← readPage 0
  let free := (← get).freePages
  if MAX_FREE_PAGES < free.length then throw (.assertion "count <= MAX_FREE_PAGES")
  writePage 0 { page with data := PageData.setFreePages free page.data }

/-- `FreeList::allocate`. -/
def allocate : DiskM δ PageId := do
  let d ← get
  match d.freePages.getLast? with
  | none => return INVALID_PAGE_ID
  | some id =>
    set { d with freePages := d.freePages.dropLast }
    save
    return id

/-- The page that `new_page` takes: a recycled one, else a new one at the end of the file. -/
def newPageId : DiskM δ PageId := do
  let id ← allocate
  if id = INVALID_PAGE_ID then allocatePage else return id

/-- `FreeList::free`. -/
def free (id : PageId) : DiskM δ Unit := do
  let d ← get
  if MAX_FREE_PAGES ≤ d.freePages.length then
    throw (.assertion "free_pages_.size() < MAX_FREE_PAGES")
  set { d with freePages := d.freePages ++ [id] }
  save

/-- `FreeList::root_page_id`. -/
def rootPageId : DiskM δ PageId := do
  if (← get).numPages = 0 then throw (.assertion "dm_.num_pages() > 0")
  let page ← readPage 0
  return PageData.rootId page.data

/-- `FreeList::set_root_page_id`. -/
def setRootPageId (id : PageId) : DiskM δ Unit := do
  if (← get).numPages = 0 then throw (.assertion "dm_.num_pages() > 0")
  let page ← readPage 0
  writePage 0 { page with data := PageData.setRootId id page.data }

/-! ## What the calls do -/

section Exec

omit [PageData δ]

/-- The page can be read: it is in the file and `pread` returns all of it. -/
def Readable (d : Disk δ) (id : PageId) : Prop :=
  0 ≤ id ∧ id < d.numPages ∧ (d.faults id).isNone

instance (d : Disk δ) (id : PageId) : Decidable (d.Readable id) :=
  inferInstanceAs (Decidable (_ ∧ _ ∧ _))

theorem Readable.numPages_ne_zero {d : Disk δ} (h : d.Readable 0) : d.numPages ≠ 0 := by
  intro e
  have hlt : (0 : Int) < d.numPages := h.2.1
  omega

theorem exec_readPage {d : Disk δ} {id : PageId} (h : d.Readable id) :
    exec (readPage id) d = (.ok (d.file id), d) := by
  obtain ⟨hlo, hhi, hfault⟩ := h
  have hrange : ¬ (id < 0 ∨ (d.numPages : Int) ≤ id) :=
    not_or.mpr ⟨not_lt.mpr hlo, not_le.mpr hhi⟩
  simp only [readPage, exec_get_bind, if_neg hrange, Option.isNone_iff_eq_none.mp hfault,
    exec_pure]

theorem exec_readPage_error {d : Disk δ} {id : PageId} (h : ¬ d.Readable id) :
    ∃ e, e.ends = false ∧ exec (readPage id) d = (.error e, d) := by
  simp only [readPage, exec_get_bind]
  by_cases hrange : id < 0 ∨ (d.numPages : Int) ≤ id
  · rw [if_pos hrange]
    exact ⟨.outOfRange _, rfl, rfl⟩
  · rw [if_neg hrange]
    cases hfault : d.faults id with
    | none =>
      obtain ⟨hlo, hhi⟩ := not_or.mp hrange
      exact (h ⟨not_lt.mp hlo, not_le.mp hhi, by simp [hfault]⟩).elim
    | some e =>
      cases e with
      | error => exact ⟨.systemError _, rfl, rfl⟩
      | short n => exact ⟨.runtimeError _, rfl, rfl⟩

theorem exec_writePage {d : Disk δ} {id : PageId} (h : 0 ≤ id) (page : Page δ) :
    exec (writePage id page) d = (.ok (), { d with writes := d.writes ++ [(id, page)] }) := by
  rw [writePage, if_neg (not_lt.mpr h), exec_modify]

end Exec

/-- The file after `save`: one more write of page 0. -/
def saved (d : Disk δ) : Disk δ :=
  { d with writes := d.writes ++
      [(0, { d.file 0 with data := PageData.setFreePages d.freePages (d.file 0).data })] }

theorem exec_save {d : Disk δ} (h : d.Readable 0) (hlen : d.freePages.length ≤ MAX_FREE_PAGES) :
    exec save d = (.ok (), d.saved) := by
  simp only [save, exec_get_bind, if_neg h.numPages_ne_zero]
  rw [exec_bind_ok (exec_readPage h)]
  simp only [exec_get_bind, if_neg (not_lt.mpr hlen)]
  exact exec_writePage le_rfl _

theorem exec_save_error {d : Disk δ} (h : ¬ (d.Readable 0 ∧ d.freePages.length ≤ MAX_FREE_PAGES)) :
    ∃ e, exec save d = (.error e, d) ∧
      (e.ends = true ↔ d.numPages = 0 ∨ d.Readable 0 ∧ MAX_FREE_PAGES < d.freePages.length) := by
  by_cases hzero : d.numPages = 0
  · simp only [save, exec_get_bind, if_pos hzero, exec_throw_bind]
    exact ⟨_, rfl, by simp [hzero, Exn.ends]⟩
  · simp only [save, exec_get_bind, if_neg hzero]
    by_cases hread : d.Readable 0
    · have hlen : MAX_FREE_PAGES < d.freePages.length := not_le.mp fun hle => h ⟨hread, hle⟩
      rw [exec_bind_ok (exec_readPage hread)]
      simp only [exec_get_bind, if_pos hlen, exec_throw_bind]
      exact ⟨_, rfl, by simp [hread, hlen, Exn.ends]⟩
    · obtain ⟨e, hends, he⟩ := exec_readPage_error hread
      exact ⟨e, exec_bind_error he _, by simp [hends, hzero, hread]⟩

/-- The id that `new_page` gives out, if page 0 can be changed where it must be. -/
def nextPage (d : Disk δ) : Option PageId :=
  match d.freePages.getLast? with
  | none => some d.numPages
  | some id =>
    if d.Readable 0 ∧ d.freePages.length ≤ MAX_FREE_PAGES + 1 then
      some (if id = INVALID_PAGE_ID then d.numPages else id)
    else none

/-- With no recycled page the file grows. -/
theorem exec_newPageId_grow {d : Disk δ} (h : d.freePages = []) :
    exec newPageId d = (.ok (d.numPages : Int), { d with
      numPages := d.numPages + 1, writes := d.writes ++ [((d.numPages : Int), Page.clear)] }) := by
  have halloc : exec allocate d = (.ok INVALID_PAGE_ID, d) := by
    simp only [allocate, exec_get_bind, h, List.getLast?_nil, exec_pure]
  rw [newPageId, exec_bind_ok halloc]
  rfl

theorem exec_newPageId {d : Disk δ} {id : PageId} (h : d.nextPage = some id) :
    ∃ d', exec newPageId d = (.ok id, d') := by
  unfold nextPage at h
  cases hlast : d.freePages.getLast? with
  | none =>
    rw [hlast] at h
    cases h
    exact ⟨_, exec_newPageId_grow (List.getLast?_eq_none_iff.mp hlast)⟩
  | some last =>
    rw [hlast] at h
    dsimp only at h
    split at h
    · next hok =>
      have hsave := exec_save (d := { d with freePages := d.freePages.dropLast }) hok.1
        (by simpa using hok.2)
      have halloc : exec allocate d =
          (.ok last, saved { d with freePages := d.freePages.dropLast }) := by
        simp only [allocate, exec_get_bind, hlast, exec_set_bind]
        exact (exec_bind_ok hsave _).trans (exec_pure _ _)
      rw [newPageId, exec_bind_ok halloc]
      cases h
      split
      · exact ⟨_, rfl⟩
      · exact ⟨_, rfl⟩
    · cases h

theorem exec_newPageId_error {d : Disk δ} (h : d.nextPage = none) :
    ∃ e d', exec newPageId d = (.error e, d') := by
  unfold nextPage at h
  cases hlast : d.freePages.getLast? with
  | none => rw [hlast] at h; cases h
  | some last =>
    rw [hlast] at h
    dsimp only at h
    split at h
    · cases h
    · next hbad =>
      obtain ⟨e, he, -⟩ := exec_save_error (d := { d with freePages := d.freePages.dropLast })
        fun hok => hbad ⟨hok.1, by simpa using hok.2⟩
      have halloc : exec allocate d =
          (.error e, { d with freePages := d.freePages.dropLast }) := by
        simp only [allocate, exec_get_bind, hlast, exec_set_bind]
        exact exec_bind_error he _
      exact ⟨e, _, exec_bind_error halloc _⟩

/-- `free` fails an assertion exactly if the list is full or there is no page 0. -/
theorem exec_free_ends (d : Disk δ) (id : PageId) :
    (∃ e, (exec (free id) d).1 = .error e ∧ e.ends = true) ↔
      d.numPages = 0 ∨ MAX_FREE_PAGES ≤ d.freePages.length := by
  by_cases hfull : MAX_FREE_PAGES ≤ d.freePages.length
  · simp [free, hfull, Exn.ends]
  · simp only [free, exec_get_bind, if_neg hfull, exec_set_bind]
    have hlen : (d.freePages ++ [id]).length ≤ MAX_FREE_PAGES := by
      rw [List.length_append, List.length_singleton]
      omega
    by_cases hread : d.Readable 0
    · have hsave := exec_save (d := { d with freePages := d.freePages ++ [id] }) hread hlen
      rw [hsave]
      simp [hread.numPages_ne_zero, hfull]
    · obtain ⟨e, he, hends⟩ := exec_save_error (d := { d with freePages := d.freePages ++ [id] })
        fun hok => hread hok.1
      rw [he]
      constructor
      · rintro ⟨e', he', hends'⟩
        cases he'
        exact Or.inl ((hends.mp hends').resolve_right fun h => hread h.1)
      · intro h
        exact ⟨e, rfl, hends.mpr (Or.inl (h.resolve_right hfull))⟩

end Disk

end KeyVDB
