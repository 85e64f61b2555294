import KeyVDB.Storage.Disk
import KeyVDB.Lib.Buffer

/-!
# Pages as bytes

What a page holds besides its id, as `page.h` lays it out: the other fields of its header and the
data area. `FreeList` keeps the number of free pages and their ids at the start of the data area of
page 0, and the root's id in its last four bytes.
-/

namespace KeyVDB

inductive PageType
  | INVALID
  | DB_HEADER
  | BTREE_INTERNAL
  | BTREE_LEAF
  | WAL_SEGMENT
  deriving DecidableEq

/-- `class Page` without the page id. -/
structure RawPage where
  pageType : PageType
  pageLsn : Int
  data : Buffer DATA_SIZE

/-- `FreeList::ROOT_ID_OFFSET`. -/
def ROOT_ID_OFFSET : Nat := DATA_SIZE - 4

namespace RawPage

/-- `Page::clear`. -/
def zero : RawPage := { pageType := .INVALID, pageLsn := 0, data := .zero }

/-- Page 0 of a new database. -/
def dbHeader : RawPage :=
  { zero with
    pageType := .DB_HEADER
    data := (Buffer.zero.setWord 4 0 0).setInt 4 ROOT_ID_OFFSET INVALID_PAGE_ID }

/-- What `FreeList::load` reads: the count and that many ids. -/
def freePages (p : RawPage) : List PageId := p.data.ints 4 4 (p.data.word 4 0)

/-- What `FreeList::save` changes. -/
def setFreePages (free : List PageId) (p : RawPage) : RawPage :=
  { p with data := (p.data.setWord 4 0 free.length).writeAt 4 (free.flatMap (intBytes 4)) }

def rootId (p : RawPage) : PageId := p.data.int 4 ROOT_ID_OFFSET

def setRootId (id : PageId) (p : RawPage) : RawPage :=
  { p with data := p.data.setInt 4 ROOT_ID_OFFSET id }

end RawPage

instance : PageData RawPage where
  zero := RawPage.zero
  dbHeader := RawPage.dbHeader
  freePages := RawPage.freePages
  setFreePages := RawPage.setFreePages
  rootId := RawPage.rootId
  setRootId := RawPage.setRootId

/-! ## The two writers of page 0 -/

namespace RawPage

variable {p : RawPage} {free : List PageId} {id : PageId}

theorem freePages_dbHeader : dbHeader.freePages = [] := rfl

theorem rootId_dbHeader : dbHeader.rootId = INVALID_PAGE_ID := by decide

theorem freePages_setFreePages (hlen : free.length ≤ MAX_FREE_PAGES)
    (hids : ∀ id ∈ free, InWord 4 id) : (setFreePages free p).freePages = free := by
  have hmax : MAX_FREE_PAGES = 1016 := rfl
  have hsize : (free.flatMap (intBytes 4)).length = 4 * free.length :=
    Buffer.length_flatMap_intBytes 4 free
  have hcount : (setFreePages free p).data.word 4 0 = free.length := by
    rw [setFreePages, Buffer.word, Buffer.readAt_writeAt_of_disjoint (Or.inl (Nat.le_refl 4))]
    exact Buffer.word_setWord (by decide) (by omega)
  rw [freePages, hcount]
  refine Buffer.ints_of_readAt hids (Buffer.readAt_writeAt ?_)
  have hdata : DATA_SIZE = 4072 := rfl
  omega

/-- The list ends before the root's slot, also when it is full. -/
theorem rootId_setFreePages (hlen : free.length ≤ MAX_FREE_PAGES) :
    (setFreePages free p).rootId = p.rootId := by
  have hmax : MAX_FREE_PAGES = 1016 := rfl
  have hroot : ROOT_ID_OFFSET = 4068 := rfl
  have hsize : (free.flatMap (intBytes 4)).length = 4 * free.length :=
    Buffer.length_flatMap_intBytes 4 free
  rw [rootId, setFreePages, Buffer.int, Buffer.readAt_writeAt_of_disjoint (Or.inr (by omega)),
    Buffer.setWord, Buffer.readAt_writeAt_of_disjoint (Or.inr (by simp [hroot]))]
  rfl

theorem rootId_setRootId (hid : InWord 4 id) : (setRootId id p).rootId = id :=
  Buffer.int_setInt (by decide) hid

theorem freePages_setRootId (hlen : p.freePages.length ≤ MAX_FREE_PAGES) :
    (setRootId id p).freePages = p.freePages := by
  have hmax : MAX_FREE_PAGES = 1016 := rfl
  have hroot : ROOT_ID_OFFSET = 4068 := rfl
  have hget : ∀ i < ROOT_ID_OFFSET, (setRootId id p).data.get i = p.data.get i :=
    fun i hi => Buffer.get_writeAt_of_outside (Or.inl hi)
  have hcount : (setRootId id p).data.word 4 0 = p.data.word 4 0 := by
    rw [Buffer.word, Buffer.word, Buffer.readAt_congr fun i _ hi => hget i (by omega)]
  rw [freePages, Buffer.ints, List.length_map, List.length_range] at hlen
  rw [freePages, hcount, Buffer.ints_congr fun i _ hi => hget i (by omega)]
  rfl

end RawPage

end KeyVDB
